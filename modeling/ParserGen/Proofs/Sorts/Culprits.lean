import ParserGen.Proofs.Sorts.Decoding
import ParserGen.Proofs.Sorts.Merges

/-!
# What unification fails over

A failed unification leaves an arena behind in which some variables have been linked already.  The
two variables that its error names still clash in that arena: their sorts are arrows with different
numbers of operands, or one of them is a proper part of the other one.  The arena has no cycle, so
both sorts can be read back, and what is read shows the clash.

Main results:

- Theorem `SortArena.WellFormed.blames_unify`: the variables of an error clash in the arena that is
  left behind.
- Theorem `SortArena.WellFormed.clash_decode`, theorem `SortArena.WellFormed.knotted_decode`: what
  is read back for two variables that clash.
-/

namespace ParserGen

/-! ## Parts of sorts -/

/-- One sort is an operand of another one. -/
inductive SortTerm.OperandOf : SortTerm → SortTerm → Prop
  | intro {s : SortTerm} {domain : List SortTerm} : s ∈ domain → OperandOf s (.arrow domain)

/-- One sort stands somewhere within another one. -/
def SortTerm.ProperPart : SortTerm → SortTerm → Prop := Relation.TransGen SortTerm.OperandOf

/-- Two sorts are arrows from different numbers of operands. -/
def SortTerm.Clash (s t : SortTerm) : Prop :=
  ∃ d e, s = .arrow d ∧ t = .arrow e ∧ d.length ≠ e.length

namespace SortArena

variable {a b : SortArena} {v w r s x : Nat} {cause : UnifyError}

/-! ## Errors -/

/-- Why the variables that an error names cannot stand for the same sort. -/
inductive Blames (a : SortArena) : UnifyError → Prop
  | arity {v w : Nat} : v < a.cells.size → w < a.cells.size → a.Clash (a.root v) (a.root w) →
      Blames a (.arity v w)
  | occurs {v w : Nat} : v < a.cells.size → w < a.cells.size → a.Knotted (a.root v) (a.root w) →
      Blames a (.occurs v w)

/-- A failed step only compresses paths, so what it fails over is still there afterwards. -/
theorem WellFormed.blames_unifyOnce (h : a.WellFormed) (hv : v < a.cells.size)
    (hw : w < a.cells.size) (herror : a.unifyOnce v w = (.error cause, b)) : b.Blames cause := by
  obtain ⟨hr, hfirst⟩ := h.find_spec v
  obtain ⟨hs, hsecond⟩ := (hfirst.wellFormed h).find_spec w
  have hboth := hfirst.trans hsecond
  rw [← h.root_eq_iff] at hr
  rw [← (hfirst.wellFormed h).root_eq_iff, hfirst.root_eq h] at hs
  have houtcome := unifyRoots_outcome (hboth.wellFormed h) (a.root v) (a.root w) v w
  rw [unifyOnce] at herror
  simp only [← hr, ← hs] at herror
  rw [herror] at houtcome
  cases houtcome with
  | clash _ hclash =>
    rw [← hboth.root_eq h, ← hboth.root_eq h] at hclash
    exact .arity (hboth.size ▸ hv) (hboth.size ▸ hw) hclash
  | knotted _ _ hknotted hlast =>
    have hall := hboth.trans hlast
    rw [← hlast.knotted_iff (hboth.wellFormed h), ← hall.root_eq h, ← hall.root_eq h] at hknotted
    exact .occurs (hall.size ▸ hv) (hall.size ▸ hw) hknotted

/-- The variables of an error clash in the arena that the steps before have led to. -/
theorem WellFormed.blames_unifyPairs {steps : Nat} {pairs : List (Nat × Nat)} (h : a.WellFormed)
    (hpairs : ∀ pair ∈ pairs, pair.1 < a.cells.size ∧ pair.2 < a.cells.size)
    (herror : unifyPairs steps a pairs = (.error cause, b)) : b.Blames cause := by
  induction steps generalizing a pairs with
  | zero => cases herror
  | succ steps ih =>
    cases pairs with
    | nil => cases herror
    | cons pair pairs =>
      obtain ⟨v, w⟩ := pair
      obtain ⟨hv, hw⟩ := hpairs _ List.mem_cons_self
      have hstep := unifyOnce_spec h hv hw
      simp only [unifyPairs] at herror
      split at herror
      · rename_i more c hanswer
        rw [hanswer] at hstep
        exact ih hstep.wellFormed (hstep.lt_of_append hpairs) herror
      · rename_i hanswer
        cases herror
        exact h.blames_unifyOnce hv hw hanswer

/-- The variables of an error clash in the arena that is left behind. -/
theorem WellFormed.blames_unify (h : a.WellFormed) (hv : v < a.cells.size)
    (hw : w < a.cells.size) (herror : a.unify v w = (.error cause, b)) :
    b.WellFormed ∧ b.Blames cause := by
  have hsolves := h.unify_spec hv hw
  rw [herror] at hsolves
  exact ⟨hsolves.wellFormed, h.blames_unifyPairs (List.forall_mem_singleton.mpr ⟨hv, hw⟩) herror⟩

/-! ## What is read back -/

theorem WellFormed.decode_root (h : a.WellFormed) (x : Nat) : a.decode (a.root x) = a.decode x :=
  read_congr (h.root_root x) _

/-- A variable with operands is read as the arrow from what is read for them. -/
theorem WellFormed.decode_of_operands? (h : a.WellFormed) {operands : List Nat}
    (hoperands : a.operands? (a.root x) = some operands) :
    a.decode x = .arrow (operands.map a.decode) := by
  rw [← h.decode_root, h.decode_arrow (arrow_of_operands? hoperands)]

/-- Parts are read as operands. -/
theorem WellFormed.operandOf_decode (h : a.WellFormed) (hchild : a.Child r s) :
    (a.decode s).OperandOf (a.decode r) := by
  obtain ⟨operands, y, hcell, hy, hs⟩ := hchild
  rw [h.decode_arrow hcell, ← h.root_eq_iff.mpr hs, h.decode_root]
  exact .intro (List.mem_map_of_mem hy)

/-- Proper parts are read as proper parts. -/
theorem WellFormed.properPart_decode (h : a.WellFormed)
    (hpart : Relation.TransGen a.Child r s) : (a.decode s).ProperPart (a.decode r) := by
  induction hpart with
  | single hchild => exact .single (h.operandOf_decode hchild)
  | tail _ hchild ih => exact .head (h.operandOf_decode hchild) ih

/-- Variables with different numbers of operands are read as arrows that differ in this. -/
theorem WellFormed.clash_decode (h : a.WellFormed) (hclash : a.Clash (a.root v) (a.root w)) :
    (a.decode v).Clash (a.decode w) := by
  obtain ⟨d, e, hd, he, hlength⟩ := hclash
  refine ⟨_, _, h.decode_of_operands? hd, h.decode_of_operands? he, ?_⟩
  rwa [List.length_map, List.length_map]

/-- If one of two variables is a part of the other one, so is what is read for it. -/
theorem WellFormed.knotted_decode (h : a.WellFormed)
    (hknotted : a.Knotted (a.root v) (a.root w)) :
    (a.decode v).ProperPart (a.decode w) ∨ (a.decode w).ProperPart (a.decode v) := by
  rw [← h.decode_root v, ← h.decode_root w]
  exact hknotted.imp h.properPart_decode h.properPart_decode

end SortArena
end ParserGen
