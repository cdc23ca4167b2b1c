import Mathlib.Data.Set.Function
import Mathlib.Order.Interval.Set.Defs
import ParserGen.Proofs.Sorts.Models

/-!
# Allocation

A new variable has a cell that names older variables only, and no cell names it.  So it closes no
cycle, and a model of the old arena is extended to it by any sort that its cell allows.

Main results:

- Theorem `SortArena.WellFormed.allocate`: allocation closes no cycle.
- Theorem `SortArena.models_allocate`: the models of an arena with one more variable.
- Theorem `SortArena.Fresh.cons`: several new variables of unknown sorts may have any sorts.
- Theorem `SortArena.Fresh.arrow`: the arrow from new variables.
-/

namespace ParserGen

/-- The cell names the variable `w`. -/
def SortCell.Names (cell : SortCell) (w : Nat) : Prop :=
  cell = .link w ∨ ∃ operands, cell = .arrow operands ∧ w ∈ operands

namespace SortArena

variable {a b c : SortArena} {cell : SortCell} {v w : Nat} {vs : List Nat}
  {ρ ρ' : Nat → GroundSort}

theorem wellFormed_withLimit (limit : Nat) : (withLimit limit).WellFormed := by
  have hnone : ∀ v w, ¬ (withLimit limit).Points v w := by
    intro v w hpoints
    cases v with
    | zero =>
      rcases hpoints with hlink | ⟨operands, hcell, hw⟩
      · cases hlink
      · cases hcell
        cases hw
    | succ v => rcases hpoints with hlink | ⟨_, hcell, _⟩ <;> trivial
  refine ⟨fun hpoints => absurd hpoints (hnone _ _), fun v hcycle => ?_⟩
  obtain ⟨w, hpoints, _⟩ := Relation.TransGen.head'_iff.mp hcycle
  exact hnone v w hpoints

/-! ## One variable -/

/-- A new variable gets the next number, if there is one. -/
theorem allocate_eq_some : a.allocate cell = some (v, b) ↔
    a.cells.size < a.limit ∧ v = a.cells.size ∧ b = { a with cells := a.cells.push cell } := by
  unfold allocate
  split
  · rename_i hlt
    simp [hlt, eq_comm]
  · rename_i hlt
    simp [hlt]

/-- Allocation closes no cycle. -/
theorem WellFormed.allocate (h : a.WellFormed) (hcell : ∀ w, cell.Names w → w < a.cells.size)
    (hb : a.allocate cell = some (v, b)) : b.WellFormed := by
  obtain ⟨_, _, rfl⟩ := allocate_eq_some.mp hb
  have hpoints : ∀ v w, Points { a with cells := a.cells.push cell } v w →
      w < a.cells.size ∧ (a.Points v w ∨ v = a.cells.size) := by
    intro v w hvw
    simp only [Points, Linked, Array.getElem?_push] at hvw
    split at hvw
    · rename_i hv
      simp only [Option.some.injEq] at hvw
      exact ⟨hcell w hvw, Or.inr hv⟩
    · have hold : a.Points v w := hvw
      exact ⟨h.lt_size hold, Or.inl hold⟩
  refine ⟨fun hvw => ?_, h.acyclic.add_source (fun v w hvw => (hpoints v w hvw).2) ?_⟩
  · rw [Array.size_push]
    exact Nat.lt_succ_of_lt (hpoints _ _ hvw).1
  · intro v hvw
    exact Nat.lt_irrefl _ (hpoints _ _ hvw).1

theorem WellFormed.fresh (h : a.WellFormed) (hb : a.fresh = some (v, b)) : b.WellFormed :=
  h.allocate (by rintro w (⟨⟨⟩⟩ | ⟨_, ⟨⟩, _⟩)) hb

theorem WellFormed.arrow (h : a.WellFormed) {operands : List Nat}
    (hlt : ∀ w ∈ operands, w < a.cells.size) (hb : a.arrow operands = some (v, b)) :
    b.WellFormed := by
  refine h.allocate ?_ hb
  rintro w (⟨⟨⟩⟩ | ⟨_, ⟨⟩, hw⟩)
  exact hlt w hw

/-- A model of an arena with one more variable gives it a sort that its cell allows. -/
theorem models_allocate (hb : a.allocate cell = some (v, b)) :
    b.Models ρ ↔ a.Models ρ ∧ cell.Allows ρ (ρ v) := by
  obtain ⟨_, rfl, rfl⟩ := allocate_eq_some.mp hb
  have hget : ∀ w, (a.cells.push cell)[w]? =
      if w = a.cells.size then some cell else a.cells[w]? := fun w => Array.getElem?_push
  constructor
  · intro h
    refine ⟨fun w cell' hcell' => h w cell' ?_, h _ cell ?_⟩
    · have hlt := (Array.getElem?_eq_some_iff.mp hcell').1
      rw [hget, if_neg hlt.ne, hcell']
    · rw [hget, if_pos rfl]
  · rintro ⟨h, hallows⟩ w cell' hcell'
    rw [hget] at hcell'
    split at hcell'
    · rename_i hw
      cases hcell'
      exact hw ▸ hallows
    · exact h w cell' hcell'

theorem size_allocate (hb : a.allocate cell = some (v, b)) :
    b.cells.size = a.cells.size + 1 ∧ b.limit = a.limit ∧ v = a.cells.size := by
  obtain ⟨_, rfl, rfl⟩ := allocate_eq_some.mp hb
  exact ⟨Array.size_push _, rfl, rfl⟩

theorem exists_allocate (hroom : a.cells.size < a.limit) (cell : SortCell) :
    ∃ v b, a.allocate cell = some (v, b) :=
  ⟨_, _, allocate_eq_some.mpr ⟨hroom, rfl, rfl⟩⟩

/-! ## Refinement -/

/-- What an arena demands of its variables depends on their sorts only. -/
theorem Models.congr (h : a.Models ρ) (ha : a.WellFormed)
    (heq : Set.EqOn ρ ρ' (Set.Iio a.cells.size)) : a.Models ρ' := by
  intro v cell hcell
  have hv : ρ v = ρ' v := heq (Array.getElem?_eq_some_iff.mp hcell).1
  cases cell with
  | link w => exact hv.symm.trans ((h.link hcell).trans (heq (ha.lt_size (Or.inl hcell))))
  | unknown => trivial
  | arrow operands =>
    have hoperands : operands.map ρ = operands.map ρ' :=
      List.map_congr_left fun w hw => heq (ha.lt_size (Or.inr ⟨operands, hcell, hw⟩))
    exact hv.symm.trans ((h.arrow hcell).trans (congrArg GroundSort.arrow hoperands))

/-- `b` has the variables of `a`, and demands of them all that `a` does. -/
structure Refines (a b : SortArena) : Prop where
  wellFormed : b.WellFormed
  size_le : a.cells.size ≤ b.cells.size
  limit : b.limit = a.limit
  models : ∀ ρ, b.Models ρ → a.Models ρ

theorem Refines.refl (h : a.WellFormed) : Refines a a := ⟨h, Nat.le_refl _, rfl, fun _ => id⟩

theorem Refines.trans (h : Refines a b) (h' : Refines b c) : Refines a c where
  wellFormed := h'.wellFormed
  size_le := h.size_le.trans h'.size_le
  limit := h'.limit.trans h.limit
  models ρ hρ := h.models ρ (h'.models ρ hρ)

theorem Refines.eqOn (h : Refines a b) (heq : Set.EqOn ρ ρ' (Set.Iio b.cells.size)) :
    Set.EqOn ρ ρ' (Set.Iio a.cells.size) :=
  fun _ hv => heq (Nat.lt_of_lt_of_le hv h.size_le)

/-! ## Several variables -/

/-- `b` has the new variables `vs`, which may have any sorts. -/
structure Fresh (a : SortArena) (vs : List Nat) (b : SortArena) : Prop extends Refines a b where
  size : b.cells.size = a.cells.size + vs.length
  lt : ∀ v ∈ vs, v < b.cells.size
  extend : ∀ ρ sorts, a.Models ρ → sorts.length = vs.length →
    ∃ ρ', b.Models ρ' ∧ Set.EqOn ρ ρ' (Set.Iio a.cells.size) ∧ vs.map ρ' = sorts

theorem Fresh.nil (h : a.WellFormed) : Fresh a [] a where
  toRefines := .refl h
  size := rfl
  lt := nofun
  extend ρ _ hρ hlength :=
    ⟨ρ, hρ, fun _ _ => rfl, (List.length_eq_zero_iff.mp hlength).symm⟩

theorem Fresh.cons (h : a.WellFormed) (hb : a.fresh = some (v, b)) (hc : Fresh b vs c) :
    Fresh a (v :: vs) c := by
  obtain ⟨hsize, hlimit, hv⟩ := size_allocate hb
  have hvlt : v < b.cells.size := by omega
  refine ⟨Refines.trans ⟨h.fresh hb, by omega, hlimit, fun ρ hρ => ?_⟩ hc.toRefines, ?_, ?_, ?_⟩
  · exact ((models_allocate hb).mp hρ).1
  · rw [hc.size, hsize, List.length_cons]
    omega
  · exact List.forall_mem_cons.mpr ⟨hvlt.trans_le hc.size_le, hc.lt⟩
  · intro ρ sorts hρ hlength
    cases sorts with
    | nil => cases hlength
    | cons sort sorts =>
      have hupdate : Set.EqOn ρ (Function.update ρ v sort) (Set.Iio a.cells.size) := by
        intro w hw
        exact (Function.update_of_ne (hv ▸ Nat.ne_of_lt hw) _ _).symm
      have hb' : b.Models (Function.update ρ v sort) :=
        (models_allocate hb).mpr ⟨hρ.congr h hupdate, trivial⟩
      obtain ⟨ρ', hρ', heq, hvs⟩ := hc.extend _ sorts hb' (Nat.succ.inj hlength)
      refine ⟨ρ', hρ', fun w hw => ?_, ?_⟩
      · have hlt : w < b.cells.size := Nat.lt_of_lt_of_le hw (by omega)
        exact (hupdate hw).trans (heq hlt)
      · have hsort : ρ' v = sort := (heq hvlt).symm.trans (Function.update_self v sort ρ)
        rw [List.map_cons, hsort, hvs]

/-- `b` has the new variables `vs`, which may have any sorts, and the arrow from them. -/
structure Shaped (a : SortArena) (vs : List Nat) (shape : Nat) (b : SortArena) : Prop extends
    Refines a b where
  size : b.cells.size = a.cells.size + (vs.length + 1)
  lt : ∀ v ∈ vs, v < b.cells.size
  shape_lt : shape < b.cells.size
  arrow : ∀ ρ, b.Models ρ → ρ shape = .arrow (vs.map ρ)
  extend : ∀ ρ sorts, a.Models ρ → sorts.length = vs.length →
    ∃ ρ', b.Models ρ' ∧ Set.EqOn ρ ρ' (Set.Iio a.cells.size) ∧ vs.map ρ' = sorts

theorem Fresh.arrow (h : Fresh a vs b) (hc : b.arrow vs = some (v, c)) : Shaped a vs v c := by
  obtain ⟨hsize, hlimit, hv⟩ := size_allocate hc
  have hmodels : ∀ ρ, c.Models ρ ↔ b.Models ρ ∧ ρ v = .arrow (vs.map ρ) :=
    fun ρ => models_allocate hc
  have hrefines : Refines b c :=
    ⟨h.wellFormed.arrow h.lt hc, by omega, hlimit, fun ρ hρ => ((hmodels ρ).mp hρ).1⟩
  refine ⟨h.toRefines.trans hrefines, ?_, ?_, by omega, fun ρ hρ => ((hmodels ρ).mp hρ).2, ?_⟩
  · rw [hsize, h.size]
    omega
  · exact fun w hw => (h.lt w hw).trans_le hrefines.size_le
  · intro ρ sorts hρ hlength
    obtain ⟨ρ', hρ', heq, hvs⟩ := h.extend ρ sorts hρ hlength
    have hupdate : Set.EqOn ρ' (Function.update ρ' v (.arrow sorts)) (Set.Iio b.cells.size) := by
      intro w hw
      exact (Function.update_of_ne (hv ▸ Nat.ne_of_lt hw) _ _).symm
    have hvs' : vs.map (Function.update ρ' v (.arrow sorts)) = sorts :=
      (List.map_congr_left fun w hw => (hupdate (h.lt w hw)).symm).trans hvs
    refine ⟨Function.update ρ' v (.arrow sorts), (hmodels _).mpr ⟨?_, ?_⟩, ?_, hvs'⟩
    · exact hρ'.congr h.wellFormed hupdate
    · rw [hvs', Function.update_self]
    · exact heq.trans (h.eqOn hupdate)

end SortArena
end ParserGen
