import ParserGen.Proofs.Acyclic
import ParserGen.Sorts.Arena

/-!
# Representatives

The cells of an arena are the nodes of a graph: a cell points to the variable it is linked to, or to
the operands of its arrow.  As long as the graph has no cycle, the links from any variable end in a
representative, and compressing paths changes no representative and no arrow.

Main results:

- Theorem `SortArena.WellFormed.root_represents`: every variable has the representative that is
  found by following links.
- Theorem `SortArena.WellFormed.find_spec`: finding a representative only compresses paths.
- Theorem `SortArena.Compressed.wellFormed`: compressed paths close no cycle.
-/

namespace ParserGen
namespace SortArena

variable {a b c : SortArena} {v w r : Nat}

/-- The cell of `v` is a link to `w`. -/
def Linked (a : SortArena) (v w : Nat) : Prop := a.cells[v]? = some (.link w)

/-- The cell of `v` is a link to `w` or an arrow that has it as an operand. -/
def Points (a : SortArena) (v w : Nat) : Prop :=
  a.Linked v w ∨ ∃ operands, a.cells[v]? = some (.arrow operands) ∧ w ∈ operands

/-- The variables in the cells are those of the arena, and no cell leads back to itself. -/
structure WellFormed (a : SortArena) : Prop where
  lt_size : ∀ {v w : Nat}, a.Points v w → w < a.cells.size
  acyclic : Acyclic a.Points

/-- The links from `v` end in `r`. -/
structure Represents (a : SortArena) (v r : Nat) : Prop where
  path : Relation.ReflTransGen a.Linked v r
  last : ∀ w, ¬ a.Linked r w

theorem Linked.points (h : a.Linked v w) : a.Points v w := Or.inl h

/-- A variable is linked to one variable only. -/
theorem Linked.unique {w' : Nat} (h : a.Linked v w) (h' : a.Linked v w') : w = w' := by
  cases h.symm.trans h'
  rfl

/-- Only the variables of an arena are linked. -/
theorem Linked.lt (h : a.Linked v w) : v < a.cells.size := (Array.getElem?_eq_some_iff.mp h).1

/-- Only arrows have operands. -/
theorem arrow_of_operands? {operands : List Nat} (hsome : a.operands? r = some operands) :
    a.cells[r]? = some (.arrow operands) := by
  unfold operands? at hsome
  split at hsome
  · rename_i hcell
    cases hsome
    exact hcell
  · cases hsome

/-- Arrows have operands. -/
theorem operands?_of_arrow {operands : List Nat} (hcell : a.cells[r]? = some (.arrow operands)) :
    a.operands? r = some operands := by
  simp only [operands?, hcell]

/-! ## Following links -/

/-- A variable that is not linked represents itself. -/
theorem Represents.refl (h : ∀ w, ¬ a.Linked v w) : a.Represents v v := ⟨.refl, h⟩

/-- An arrow represents itself. -/
theorem Represents.of_arrow {operands : List Nat} (hcell : a.cells[v]? = some (.arrow operands)) :
    a.Represents v v :=
  .refl fun w hlink => by cases hcell.symm.trans hlink

/-- What represents a variable represents those that are linked to it. -/
theorem Represents.head (hlink : a.Linked v w) (h : a.Represents w r) : a.Represents v r :=
  ⟨.head hlink h.path, h.last⟩

/-- What represents a linked variable represents the next one. -/
theorem Represents.tail (h : a.Represents v r) (hlink : a.Linked v w) : a.Represents w r := by
  rcases Relation.ReflTransGen.cases_head h.path with rfl | ⟨w', hlink', hpath⟩
  · exact absurd hlink (h.last w)
  · exact ⟨hlink.unique hlink' ▸ hpath, h.last⟩

/-- A variable has one representative only. -/
theorem Represents.unique {r' : Nat} (h : a.Represents v r) (h' : a.Represents v r') : r = r' := by
  obtain ⟨hpath, hlast⟩ := h
  induction hpath using Relation.ReflTransGen.head_induction_on with
  | refl =>
    rcases Relation.ReflTransGen.cases_head h'.path with heq | ⟨w, hlink, _⟩
    · exact heq
    · exact absurd hlink (hlast w)
  | head hlink _ ih => exact ih (h'.tail hlink)

namespace WellFormed

/-- The number of variables that can be reached from a cell. -/
noncomputable def height (a : SortArena) (v : Nat) : Nat :=
  ParserGen.height a.Points (Finset.range a.cells.size) v

/-- What a cell points to is less high than the cell. -/
theorem height_lt (h : a.WellFormed) (hpoints : a.Points v w) : height a w < height a v :=
  height_lt_height h.acyclic (fun _ _ hxy => Finset.mem_range.mpr (h.lt_size hxy)) hpoints

/-- No cell is as high as the arena is large, so a search need not look deeper than that. -/
theorem height_lt_size (h : a.WellFormed) (hv : v < a.cells.size) : height a v < a.cells.size := by
  have hlt := height_lt_card (E := a.Points) h.acyclic (Finset.mem_range.mpr hv)
  rwa [Finset.card_range] at hlt

/-- With enough steps the representative is found. -/
theorem follow_represents (h : a.WellFormed) {steps : Nat} (hsteps : height a v ≤ steps) :
    a.Represents v (a.follow steps v) := by
  induction steps generalizing v with
  | zero =>
    refine .refl fun w hlink => ?_
    exact Nat.not_lt_zero _ (Nat.lt_of_lt_of_le (h.height_lt hlink.points) hsteps)
  | succ steps ih =>
    simp only [follow]
    split
    · rename_i next hlink
      have hlower := h.height_lt (Linked.points hlink)
      exact .head hlink (ih (by omega))
    · rename_i hnone
      exact .refl fun w hlink => hnone w hlink

/-- The links from a variable end in its representative. -/
theorem root_represents (h : a.WellFormed) (v : Nat) : a.Represents v (a.root v) := by
  refine h.follow_represents ?_
  have hle := height_le_card a.Points (Finset.range a.cells.size) v
  rwa [Finset.card_range] at hle

/-- The root of a variable is its representative. -/
theorem root_eq_iff (h : a.WellFormed) : a.root v = r ↔ a.Represents v r := by
  constructor
  · rintro rfl
    exact h.root_represents v
  · exact (h.root_represents v).unique

/-- The representative of a variable of the arena is one, too. -/
theorem lt_of_represents (h : a.WellFormed) (hv : v < a.cells.size) (hr : a.Represents v r) :
    r < a.cells.size := by
  rcases Relation.ReflTransGen.cases_tail hr.path with rfl | ⟨w, _, hlink⟩
  · exact hv
  · exact h.lt_size hlink.points

end WellFormed

/-! ## Compressed paths -/

/-- Linking a variable changes its cell only. -/
theorem getElem?_link (a : SortArena) (v w x : Nat) :
    (a.link v w).cells[x]? =
      if x = v ∧ v < a.cells.size then some (.link w) else a.cells[x]? := by
  rw [link, Array.getElem?_setIfInBounds]
  by_cases hx : v = x
  · subst hx
    by_cases hv : v < a.cells.size
    · simp [hv]
    · simp [hv]
  · have : x ≠ v := Ne.symm hx
    simp [hx, this]

/-- A variable that is linked has no other link than the new one. -/
theorem linked_link_iff {x y : Nat} (hv : v < a.cells.size) :
    (a.link v w).Linked x y ↔ if x = v then y = w else a.Linked x y := by
  unfold Linked
  rw [getElem?_link]
  by_cases hx : x = v
  · simp [hx, hv, eq_comm]
  · simp [hx]

/-- `b` is `a` with links that lead further along the same paths. -/
structure Compressed (a b : SortArena) : Prop where
  size : b.cells.size = a.cells.size
  limit : b.limit = a.limit
  cells : ∀ {v : Nat} {cell : SortCell}, (∀ w, cell ≠ .link w) →
    (b.cells[v]? = some cell ↔ a.cells[v]? = some cell)
  linked : ∀ {v w : Nat}, b.Linked v w → Relation.TransGen a.Linked v w
  represents : ∀ {v r : Nat}, a.Represents v r → b.Represents v r

namespace Compressed

theorem refl (a : SortArena) : Compressed a a := ⟨rfl, rfl, fun _ => Iff.rfl, .single, id⟩

theorem trans (h : Compressed a b) (h' : Compressed b c) : Compressed a c where
  size := h'.size.trans h.size
  limit := h'.limit.trans h.limit
  cells hcell := (h'.cells hcell).trans (h.cells hcell)
  linked hlink := Relation.TransGen.closed (fun _ _ => h.linked) _ _ (h'.linked hlink)
  represents hr := h'.represents (h.represents hr)

/-- Compressing paths leaves the arrows alone. -/
theorem arrow (h : Compressed a b) {operands : List Nat} :
    b.cells[v]? = some (.arrow operands) ↔ a.cells[v]? = some (.arrow operands) :=
  h.cells nofun

/-- What is pointed to after compressing could be reached before. -/
theorem points (h : Compressed a b) (hpoints : b.Points v w) : Relation.TransGen a.Points v w := by
  rcases hpoints with hlink | ⟨operands, hcell, hw⟩
  · exact Relation.TransGen.mono (fun _ _ => Linked.points) _ _ (h.linked hlink)
  · exact .single (Or.inr ⟨operands, h.arrow.mp hcell, hw⟩)

/-- Compressed paths close no cycle. -/
theorem wellFormed (h : Compressed a b) (ha : a.WellFormed) : b.WellFormed where
  lt_size hpoints := by
    obtain ⟨_, _, hlast⟩ := Relation.TransGen.tail'_iff.mp (h.points hpoints)
    exact h.size ▸ ha.lt_size hlast
  acyclic v hcycle := ha.acyclic v (Relation.TransGen.closed (fun _ _ => h.points) _ _ hcycle)

/-- No more can be reached along compressed paths. -/
theorem height_le (h : Compressed a b) (v : Nat) :
    WellFormed.height b v ≤ WellFormed.height a v := by
  rw [WellFormed.height, h.size]
  exact height_le_height (fun _ _ => h.points) _ v

/-- Compressing paths leaves each variable its representative. -/
theorem represents_iff (h : Compressed a b) (ha : a.WellFormed) :
    b.Represents v r ↔ a.Represents v r := by
  refine ⟨fun hr => ?_, h.represents⟩
  have hroot := ha.root_represents v
  exact hr.unique (h.represents hroot) ▸ hroot

/-- Compressing paths leaves each variable its operands. -/
theorem operands?_eq (h : Compressed a b) (v : Nat) : b.operands? v = a.operands? v := by
  unfold operands?
  have harrow : ∀ operands, b.cells[v]? = some (.arrow operands) ↔
      a.cells[v]? = some (.arrow operands) := fun _ => h.arrow
  cases hb : b.cells[v]? with
  | none => cases ha : a.cells[v]? with
    | none => rfl
    | some cell => cases cell <;> simp_all
  | some cell =>
    cases ha : a.cells[v]? with
    | none => cases cell <;> simp_all
    | some cell' => cases cell <;> cases cell' <;> simp_all

end Compressed

/-- A link may lead to the representative at once. -/
theorem compressed_link (hlink : a.Linked v w) (hr : a.Represents v r) :
    Compressed a (a.link v r) := by
  have hv := hlink.lt
  have hlinked {x y : Nat} := linked_link_iff (w := r) (x := x) (y := y) hv
  refine ⟨by simp [link], rfl, ?_, ?_, ?_⟩
  · intro x cell hne
    rw [getElem?_link]
    split
    · rename_i hx
      have hold : a.cells[x]? = some (.link w) := hx.1 ▸ hlink
      rw [hold]
      simp [(hne r).symm, (hne w).symm]
    · rfl
  · intro x y hxy
    rw [hlinked] at hxy
    split at hxy
    · rename_i hx
      subst hx hxy
      rcases Relation.reflTransGen_iff_eq_or_transGen.mp hr.path with rfl | hpath
      · exact absurd hlink (hr.last w)
      · exact hpath
    · exact .single hxy
  · rintro x y ⟨hpath, hlast⟩
    have hvy : ∀ z, ¬ (a.link v r).Linked y z := by
      intro z hz
      rw [hlinked] at hz
      split at hz
      · rename_i hy
        exact hlast w (hy ▸ hlink)
      · exact hlast z hz
    induction hpath using Relation.ReflTransGen.head_induction_on with
    | refl => exact .refl hvy
    | @head x x' hxx' hpath ih =>
      by_cases hx : x = v
      · have hsame : y = r := Represents.unique ⟨.head hxx' hpath, hlast⟩ (hx ▸ hr)
        subst hsame
        exact .head (hlinked.mpr (by rw [if_pos hx])) (.refl hvy)
      · exact .head (hlinked.mpr (by rw [if_neg hx]; exact hxx')) ih

/-- Linking the variables on a path to its end compresses the path. -/
theorem compressed_compress (h : a.WellFormed) (hr : a.Represents v r) (steps : Nat) :
    Compressed a (a.compress r steps v) := by
  induction steps generalizing a v with
  | zero => exact .refl a
  | succ steps ih =>
    simp only [compress]
    split
    · rename_i next hlink
      have hstep := compressed_link hlink hr
      exact hstep.trans (ih (hstep.wellFormed h) (hstep.represents (hr.tail hlink)))
    · exact .refl a

/-- Finding a representative only compresses paths. -/
theorem WellFormed.find_spec (h : a.WellFormed) (v : Nat) :
    a.Represents v (a.find v).1 ∧ Compressed a (a.find v).2 :=
  ⟨h.root_represents v, compressed_compress h (h.root_represents v) _⟩

end SortArena
end ParserGen
