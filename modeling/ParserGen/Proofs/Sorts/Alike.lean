import Mathlib.Data.Set.Function
import ParserGen.Proofs.Sorts.Merges
import ParserGen.Proofs.Sorts.Termination

/-!
# Arenas that are alike

Two runs of unification may link representatives in opposite directions and keep different lists of
operands.  What is the same in both arenas are the classes, and the classes of the operands.  Such
arenas have the same parts and clashes, and what is read from them differs only in the names of the
unknown sorts.

While two arrows are being unified, the arenas of the two runs disagree about their operands.  So
arenas are compared in a region, which is closed under the operands of its variables and need not
have these arrows.

Main results:

- Theorem `SortArena.Confined.widen`: what is merged in a part of a region is merged in the region.
- Theorem `SortArena.Alike.part_iff`: alike arenas have the same parts.
- Theorem `SortArena.Alike.bijOn_unknowns`: they have the same unknown sorts, under other names.
- Theorem `SortArena.Alike.read_eq`: the same sorts are read from them.
-/

namespace ParserGen

namespace SortTerm

mutual

/-- Rename the variables. -/
def rename (ρ : Nat → Nat) : SortTerm → SortTerm
  | var id => .var (ρ id)
  | arrow domain => .arrow (renameAll ρ domain)

def renameAll (ρ : Nat → Nat) : List SortTerm → List SortTerm
  | [] => []
  | s :: rest => s.rename ρ :: renameAll ρ rest

end

/-- Each operand is renamed. -/
theorem renameAll_eq_map (ρ : Nat → Nat) (domain : List SortTerm) :
    renameAll ρ domain = domain.map (rename ρ) := by
  induction domain with
  | nil => rfl
  | cons s rest ih => rw [renameAll, ih, List.map_cons]

end SortTerm

namespace SortArena

variable {a b c : SortArena} {S T : Set Nat} {v w x y s t : Nat}

/-! ## Regions -/

/-- A set of variables that has with each variable its class and the operands of that. -/
structure Region (a : SortArena) (S : Set Nat) : Prop where
  wellFormed : a.WellFormed
  lt : ∀ x ∈ S, x < a.cells.size
  root : ∀ x, a.root x ∈ S ↔ x ∈ S
  operands : ∀ x ∈ S, ∀ operands, a.domain? x = some operands → ∀ y ∈ operands, y ∈ S

/-- A region has with each variable its whole class. -/
theorem Region.mem_of_root_eq (h : Region a S) (hx : x ∈ S) (heq : a.root y = a.root x) : y ∈ S :=
  (h.root y).mp (heq ▸ (h.root x).mpr hx)

/-- All variables of an arena together are a region. -/
theorem WellFormed.region (h : a.WellFormed) : Region a {x | x < a.cells.size} where
  wellFormed := h
  lt _ hx := hx
  root x := by
    refine ⟨fun hx => ?_, h.root_lt⟩
    by_contra hge
    have hnone : a.cells[x]? = none := Array.getElem?_eq_none (Nat.le_of_not_lt hge)
    have hroot : a.root x = x :=
      h.root_eq_iff.mpr (.refl fun y hlink => nomatch hnone.symm.trans hlink)
    exact hge (hroot ▸ hx)
  operands x _ operands hoperands y hy :=
    h.lt_size (Or.inr ⟨operands, arrow_of_operands? hoperands, hy⟩)

/-- `c` is `a` after classes that are in `S` have been merged. -/
structure Confined (a c : SortArena) (S : Set Nat) : Prop where
  region : Region c S
  size : c.cells.size = a.cells.size
  factors : c.root ∘ a.root = c.root
  root : ∀ x, x ∉ S → c.root x = a.root x
  domain : ∀ x, x ∉ S → c.domain? x = a.domain? x

/-- An arena in which nothing is merged has not changed outside the region. -/
theorem Confined.refl (h : Region a S) : Confined a a S where
  region := h
  size := rfl
  factors := funext h.wellFormed.root_root
  root _ _ := rfl
  domain _ _ := rfl

/-- What is merged in a region one after the other is merged in the region. -/
theorem Confined.trans (h : Confined a b S) (h' : Confined b c S) : Confined a c S where
  region := h'.region
  size := h'.size.trans h.size
  factors := by rw [← h'.factors, Function.comp_assoc, h.factors]
  root x hx := (h'.root x hx).trans (h.root x hx)
  domain x hx := (h'.domain x hx).trans (h.domain x hx)

/-- What is merged in a part of a region is merged in the region. -/
theorem Confined.widen (h : Confined a c T) (ha : Region a S) (hT : T ⊆ S) : Confined a c S where
  region := by
    refine ⟨h.region.wellFormed, fun x hx => h.size ▸ ha.lt x hx, fun x => ?_,
      fun x hx operands hoperands y hy => ?_⟩
    · by_cases hx : x ∈ T
      · exact iff_of_true (hT ((h.region.root x).mpr hx)) (hT hx)
      · rw [h.root x hx, ha.root]
    · by_cases hxT : x ∈ T
      · exact hT (h.region.operands x hxT operands hoperands y hy)
      · rw [h.domain x hxT] at hoperands
        exact ha.operands x hx operands hoperands y hy
  size := h.size
  factors := h.factors
  root x hx := h.root x fun hxT => hx (hT hxT)
  domain x hx := h.domain x fun hxT => hx (hT hxT)

/-- Compressing paths merges nothing. -/
theorem Region.confined_of_compressed (h : Region a S) (hc : Compressed a c) : Confined a c S := by
  have hroot := hc.root_eq h.wellFormed
  have hdomain := hc.domain?_eq h.wellFormed
  refine ⟨⟨hc.wellFormed h.wellFormed, fun x hx => hc.size ▸ h.lt x hx, fun x => ?_,
    fun x hx operands hoperands => ?_⟩, hc.size, funext fun x => ?_, fun x _ => hroot x,
    fun x _ => hdomain x⟩
  · rw [hroot, h.root]
  · rw [hdomain] at hoperands
    exact h.operands x hx operands hoperands
  · rw [Function.comp_apply, hroot, hroot, h.wellFormed.root_root]

/-- Merging two variables of a region changes nothing outside the region. -/
theorem Region.confined_of_merges (h : Region a S) (hv : v ∈ S) (hw : w ∈ S)
    (hc : a.Merges v w t c) : Confined a c S := by
  have hrootv := (h.root v).mpr hv
  have hrootw := (h.root w).mpr hw
  have ht : t ∈ S := by
    rcases hc.survivor with rfl | rfl
    · exact hrootv
    · exact hrootw
  have hroot : ∀ x, c.root x ∈ S ↔ x ∈ S := by
    intro x
    rw [hc.root]
    split
    · rename_i hx
      refine iff_of_true ht ?_
      rcases hx with hx | hx
      · exact h.mem_of_root_eq hv hx
      · exact h.mem_of_root_eq hw hx
    · exact h.root x
  have houtside : ∀ x, x ∉ S → c.root x = a.root x := by
    intro x hx
    rw [hc.root, if_neg]
    rintro (hsame | hsame)
    · exact hx (h.mem_of_root_eq hv hsame)
    · exact hx (h.mem_of_root_eq hw hsame)
  refine ⟨⟨hc.wellFormed, fun x hx => hc.size ▸ h.lt x hx, hroot,
    fun x hx operands hoperands => ?_⟩, hc.size, hc.factors h.wellFormed, houtside, fun x hx => ?_⟩
  · rw [hc.domain] at hoperands
    exact h.operands _ ((hroot x).mpr hx) operands hoperands
  · rw [hc.domain, houtside x hx, h.wellFormed.domain?_root]

/-! ## Alike arenas -/

/-- Two arenas with the same classes.  The operands of the variables in `S` are in the same classes,
too. -/
structure Alike (a b : SortArena) (S : Set Nat) : Prop where
  left : Region a S
  right : Region b S
  root_iff : ∀ x y, a.root x = a.root y ↔ b.root x = b.root y
  domain : ∀ x ∈ S, (a.domain? x).map (List.map a.root) = (b.domain? x).map (List.map a.root)

namespace Alike

theorem refl (h : Region a S) : Alike a a S := ⟨h, h, fun _ _ => Iff.rfl, fun _ _ => rfl⟩

/-- Going to the root of one arena first makes no difference to the root in the other one. -/
theorem factors (h : Alike a b S) : b.root ∘ a.root = b.root :=
  funext fun x => (h.root_iff _ _).mp (h.left.wellFormed.root_root x)

/-- The operands are the same to any function of the classes. -/
theorem map_domain (h : Alike a b S) {α : Type} {f : Nat → α} (hf : f ∘ a.root = f) (hx : x ∈ S) :
    (a.domain? x).map (List.map f) = (b.domain? x).map (List.map f) := by
  have hmap := congrArg (Option.map (List.map f)) (h.domain x hx)
  rwa [Option.map_map, Option.map_map, List.map_comp_map, hf] at hmap

/-- The two arenas may be exchanged. -/
theorem symm (h : Alike a b S) : Alike b a S where
  left := h.right
  right := h.left
  root_iff x y := (h.root_iff x y).symm
  domain _ hx := (h.map_domain h.factors hx).symm

/-- If a variable has operands in one arena, it has operands in the other one, and in the same
classes. -/
theorem exists_domain (h : Alike a b S) (hx : x ∈ S) {operands : List Nat}
    (hoperands : a.domain? x = some operands) :
    ∃ operands', b.domain? x = some operands' ∧ operands'.map a.root = operands.map a.root := by
  have hmap := h.domain x hx
  rw [hoperands, Option.map_some] at hmap
  exact Option.map_eq_some_iff.mp hmap.symm

/-- The same variables are unknown in both arenas. -/
theorem domain_eq_none_iff (h : Alike a b S) (hx : x ∈ S) :
    a.domain? x = none ↔ b.domain? x = none := by
  rw [← Option.map_eq_none_iff (f := List.map a.root), h.domain x hx, Option.map_eq_none_iff]

/-- A part of a region that one of two alike arenas has is one that both have. -/
theorem restrict (h : Alike a b S) (hT : T ⊆ S) (hregion : Region a T) : Alike a b T where
  left := hregion
  right := by
    refine ⟨h.right.wellFormed, fun x hx => h.right.lt x (hT hx), fun x => ?_,
      fun x hx operands hoperands y hy => ?_⟩
    · rw [← hregion.root, ← hregion.root x, ← Function.comp_apply (f := a.root), h.symm.factors]
    · obtain ⟨operands', hoperands', hmap⟩ := h.symm.exists_domain (hT hx) hoperands
      obtain ⟨y', hy', heq⟩ := List.mem_map.mp (hmap ▸ List.mem_map_of_mem hy)
      have hmem := hregion.operands x hx operands' hoperands' y' hy'
      exact hregion.mem_of_root_eq hmem ((h.root_iff _ _).mpr heq.symm)
  root_iff := h.root_iff
  domain x hx := h.domain x (hT hx)

/-! ## Parts and clashes -/

/-- An operand in one arena is an operand in the other one. -/
theorem child (h : Alike a b S) (hx : x ∈ S) (hchild : a.Child (a.root x) s) :
    a.root s = s ∧ s ∈ S ∧ b.Child (b.root x) (b.root s) := by
  obtain ⟨operands, hoperands, y, hy, rfl⟩ := h.left.wellFormed.child_iff.mp hchild
  obtain ⟨operands', hoperands', hmap⟩ := h.exists_domain hx hoperands
  obtain ⟨y', hy', heq⟩ := List.mem_map.mp (hmap ▸ List.mem_map_of_mem hy)
  refine ⟨h.left.wellFormed.root_root y, ?_, ?_⟩
  · exact (h.left.root y).mpr (h.left.operands x hx operands hoperands y hy)
  · refine h.right.wellFormed.child_iff.mpr ⟨operands', hoperands', y', hy', ?_⟩
    exact (h.root_iff _ _).mp (heq.trans (h.left.wellFormed.root_root y).symm)

/-- A proper part in one arena is a proper part in the other one. -/
theorem part (h : Alike a b S) (hx : x ∈ S) (hpart : Relation.TransGen a.Child (a.root x) s) :
    a.root s = s ∧ s ∈ S ∧ Relation.TransGen b.Child (b.root x) (b.root s) := by
  induction hpart with
  | single hchild =>
    obtain ⟨hroot, hs, hchild'⟩ := h.child hx hchild
    exact ⟨hroot, hs, .single hchild'⟩
  | tail _ hchild ih =>
    obtain ⟨hroot, hs, hpart⟩ := ih
    obtain ⟨hroot', hs', hchild'⟩ := h.child hs (hroot.symm ▸ hchild)
    exact ⟨hroot', hs', hpart.tail hchild'⟩

theorem part_iff (h : Alike a b S) (hx : x ∈ S) :
    Relation.TransGen a.Child (a.root x) (a.root y) ↔
      Relation.TransGen b.Child (b.root x) (b.root y) := by
  have hfactors : ∀ {a b}, Alike a b S → b.root (a.root y) = b.root y :=
    fun h => congrFun h.factors y
  constructor
  · intro hpart
    have hpart' := (h.part hx hpart).2.2
    rwa [hfactors h] at hpart'
  · intro hpart
    have hpart' := (h.symm.part hx hpart).2.2
    rwa [hfactors h.symm] at hpart'

/-- One of two variables is a part of the other one in both arenas or in neither. -/
theorem knotted_iff (h : Alike a b S) (hx : x ∈ S) (hy : y ∈ S) :
    a.Knotted (a.root x) (a.root y) ↔ b.Knotted (b.root x) (b.root y) :=
  or_congr (h.part_iff hy) (h.part_iff hx)

theorem clash_of_clash (h : Alike a b S) (hx : x ∈ S) (hy : y ∈ S)
    (hclash : a.Clash (a.root x) (a.root y)) : b.Clash (b.root x) (b.root y) := by
  obtain ⟨d, e, hd, he, hne⟩ := hclash
  obtain ⟨d', hd', hmapd⟩ := h.exists_domain hx hd
  obtain ⟨e', he', hmape⟩ := h.exists_domain hy he
  have hlengthd := congrArg List.length hmapd
  have hlengthe := congrArg List.length hmape
  rw [List.length_map, List.length_map] at hlengthd hlengthe
  exact ⟨d', e', hd', he', hlengthd ▸ hlengthe ▸ hne⟩

/-- Two variables clash in both arenas or in neither. -/
theorem clash_iff (h : Alike a b S) (hx : x ∈ S) (hy : y ∈ S) :
    a.Clash (a.root x) (a.root y) ↔ b.Clash (b.root x) (b.root y) :=
  ⟨h.clash_of_clash hx hy, h.symm.clash_of_clash hx hy⟩

end Alike

/-! ## What is read -/

/-- The representatives of unknown sorts. -/
def unknowns (a : SortArena) : Set Nat := {r | a.cells[r]? = some .unknown}

/-- The unknowns of an arena are the roots without operands. -/
theorem WellFormed.mem_unknowns (h : a.WellFormed) :
    x ∈ a.unknowns ↔ x < a.cells.size ∧ a.root x = x ∧ a.domain? x = none := by
  constructor
  · intro hcell
    have hroot : a.root x = x :=
      h.root_eq_iff.mpr (.refl fun y hlink => nomatch hcell.symm.trans hlink)
    refine ⟨(Array.getElem?_eq_some_iff.mp hcell).1, hroot, ?_⟩
    rw [domain?, hroot, operands?, hcell]
  · rintro ⟨hlt, hroot, hnone⟩
    rw [domain?, hroot] at hnone
    exact unknown_of_operands? (h.root_eq_iff.mp hroot).last hlt hnone

/-- Reading goes through the operands of the root. -/
theorem read_succ (depth x : Nat) : a.read (depth + 1) x =
    ((a.domain? x).map (List.map (a.read depth))).elim (.var (a.root x)) .arrow := by
  rw [read, domain?]
  cases a.operands? (a.root x) with
  | none => rfl
  | some operands => rfl

namespace Alike

/-- Each unknown sort of one arena has one of the other arena. -/
theorem bijOn_unknowns (h : Alike a b S) (hS : ∀ x, x ∈ S ↔ x < a.cells.size)
    (hsize : b.cells.size = a.cells.size) : Set.BijOn b.root a.unknowns b.unknowns := by
  refine ⟨fun x hx => ?_, fun x hx y hy heq => ?_, fun y hy => ?_⟩
  · obtain ⟨hlt, _, hnone⟩ := h.left.wellFormed.mem_unknowns.mp hx
    have hmem := (hS x).mpr hlt
    refine h.right.wellFormed.mem_unknowns.mpr ⟨h.right.wellFormed.root_lt (hsize ▸ hlt),
      h.right.wellFormed.root_root x, ?_⟩
    rw [h.right.wellFormed.domain?_root]
    exact (h.domain_eq_none_iff hmem).mp hnone
  · obtain ⟨_, hrootx, _⟩ := h.left.wellFormed.mem_unknowns.mp hx
    obtain ⟨_, hrooty, _⟩ := h.left.wellFormed.mem_unknowns.mp hy
    rw [← hrootx, ← hrooty]
    exact (h.root_iff x y).mpr heq
  · obtain ⟨hlt, hroot, hnone⟩ := h.right.wellFormed.mem_unknowns.mp hy
    have hmem := (hS y).mpr (hsize ▸ hlt)
    refine ⟨a.root y, h.left.wellFormed.mem_unknowns.mpr
      ⟨h.left.wellFormed.root_lt (hsize ▸ hlt), h.left.wellFormed.root_root y, ?_⟩, ?_⟩
    · rw [h.left.wellFormed.domain?_root]
      exact (h.domain_eq_none_iff hmem).mpr hnone
    · rw [← Function.comp_apply (f := b.root), h.factors, hroot]

/-- What is read differs only in the representatives that unknown sorts are named after. -/
theorem read_eq (h : Alike a b S) (hx : x ∈ S) (depth : Nat) :
    b.read depth x = (a.read depth x).rename b.root := by
  have hroot : ∀ x, b.root (a.root x) = b.root x := congrFun h.factors
  induction depth generalizing x with
  | zero => rw [read, read, SortTerm.rename, hroot]
  | succ depth ih =>
    have hsame : b.read depth ∘ a.root = b.read depth := funext fun x => read_congr (hroot x) depth
    rw [read_succ, read_succ, ← h.map_domain hsame hx]
    cases hoperands : a.domain? x with
    | none => exact congrArg SortTerm.var (hroot x).symm
    | some operands =>
      have hmap : operands.map (b.read depth) =
          (operands.map (a.read depth)).map (SortTerm.rename b.root) := by
        rw [List.map_map]
        exact List.map_congr_left fun y hy => ih (h.left.operands x hx operands hoperands y hy)
      simp only [Option.map_some, Option.elim_some, SortTerm.rename, SortTerm.renameAll_eq_map,
        hmap]

end Alike

end SortArena
end ParserGen
