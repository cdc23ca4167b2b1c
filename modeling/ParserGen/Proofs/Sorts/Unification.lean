import Mathlib.Algebra.GroupWithZero.Nat
import Mathlib.Algebra.BigOperators.Group.List.Basic
import ParserGen.Proofs.Sorts.Allocation
import ParserGen.Proofs.Sorts.Occurrence

/-!
# Unification

Unifying a list of pairs takes from the models of an arena those in which the variables of some pair
have different sorts.  Each step does so for one pair, or puts the pairs of the operands of two
arrows in its place.  If a step fails, there is no model in which all pairs have equal sorts.

Main results:

- Theorem `SortArena.WellFormed.link`: a link between representatives closes no cycle if the occurs
  check allows it.
- Theorem `SortArena.unifyRoots_outcome`: all that can come of two representatives.
- Theorem `SortArena.unifyPairs_spec`: what unifying the pairs of a list does to the models.
- Theorem `SortArena.unify_most_general`: unification keeps exactly the models in which both
  variables have the same sort.
-/

namespace ParserGen
namespace SortArena

variable {a b c : SortArena} {v w r s : Nat} {ρ : Nat → GroundSort} {pairs : List (Nat × Nat)}

/-! ## Links between representatives -/

/-- A link between representatives closes no cycle if the first is not a part of the second. -/
theorem WellFormed.link (h : a.WellFormed) (hs : ∀ x, ¬ a.Linked s x) (hlt : s < a.cells.size)
    (hrs : r ≠ s) (hr : ∀ x, ¬ a.Linked r x) (hpart : ¬ Relation.TransGen a.Child s r) :
    (a.link r s).WellFormed := by
  have hpoints : ∀ x y, (a.link r s).Points x y → a.Points x y ∨ x = r ∧ y = s := by
    intro x y hxy
    simp only [Points, Linked, getElem?_link] at hxy ⊢
    split at hxy
    · rename_i hx
      rcases hxy with hlink | ⟨operands, harrow, _⟩
      · cases hlink
        exact Or.inr ⟨hx.1, rfl⟩
      · cases harrow
    · exact Or.inl hxy
  constructor
  · intro x y hxy
    have hsize : (a.link r s).cells.size = a.cells.size := by simp [SortArena.link]
    rw [hsize]
    rcases hpoints x y hxy with hold | ⟨_, rfl⟩
    · exact h.lt_size hold
    · exact hlt
  · refine h.acyclic.add_edge hpoints fun hpath => ?_
    have hchild := reflTransGen_child h hr hpath (.refl hs)
    rcases Relation.reflTransGen_iff_eq_or_transGen.mp hchild with heq | htrans
    · exact hrs heq
    · exact hpart htrans

/-- A representative without operands is unknown. -/
theorem unknown_of_operands? (hr : ∀ x, ¬ a.Linked r x) (hlt : r < a.cells.size)
    (hnone : a.operands? r = none) : a.cells[r]? = some .unknown := by
  unfold operands? at hnone
  have hget := Array.getElem?_eq_getElem hlt
  cases hcell : a.cells[r] with
  | link x =>
    rw [hcell] at hget
    exact absurd hget (hr x)
  | unknown => rw [hget, hcell]
  | arrow operands => simp [hget, hcell] at hnone

/-- An unknown sort has no parts. -/
theorem not_part_of_unknown (hs : a.operands? s = none) : ¬ Relation.TransGen a.Child s r := by
  intro hpart
  obtain ⟨_, ⟨operands, _, hcell, _, _⟩, _⟩ := Relation.TransGen.head'_iff.mp hpart
  cases hs.symm.trans (operands?_of_arrow hcell)

/-! ## The number of operands -/

/-- Compressing paths leaves the number of operands as it is. -/
theorem Compressed.operandCount_eq (h : Compressed a b) : b.operandCount = a.operandCount := by
  simp only [operandCount, h.size, h.operands?_eq]

/-- The operands of an arena are those of its variables taken together. -/
theorem operandCount_eq_sum (a : SortArena) : a.operandCount =
    ((List.range a.cells.size).map fun v => ((a.operands? v).getD []).length).sum := by
  rw [operandCount, List.sum_eq_foldr, List.foldr_map]

/-- The operands of a representative are no longer counted once it is linked. -/
theorem operandCount_link (hr : r < a.cells.size) (s : Nat) :
    (a.link r s).operandCount + ((a.operands? r).getD []).length = a.operandCount := by
  have hmem : r ∈ List.range a.cells.size := List.mem_range.mpr hr
  have hsize : (a.link r s).cells.size = a.cells.size := by simp [SortArena.link]
  have hsame : ∀ v ∈ (List.range a.cells.size).erase r,
      (((a.link r s).operands? v).getD []).length = ((a.operands? v).getD []).length := by
    intro v hv
    have hne := (List.nodup_range.mem_erase_iff.mp hv).1
    simp only [operands?, getElem?_link, if_neg fun h : v = r ∧ _ => hne h.1]
  have hlinked : (a.link r s).operands? r = none := by
    simp [operands?, getElem?_link, hr]
  rw [operandCount_eq_sum, operandCount_eq_sum, hsize, ← List.sum_map_erase _ hmem,
    ← List.sum_map_erase _ hmem, List.map_congr_left hsame, hlinked]
  simp only [Option.getD_none, List.length_nil]
  omega

/-! ## Pairs -/

/-- Both variables of each pair have the same sort. -/
def Agrees (ρ : Nat → GroundSort) (pairs : List (Nat × Nat)) : Prop :=
  ∀ pair ∈ pairs, ρ pair.1 = ρ pair.2

theorem agrees_cons : Agrees ρ ((v, w) :: pairs) ↔ ρ v = ρ w ∧ Agrees ρ pairs :=
  List.forall_mem_cons

theorem agrees_singleton : Agrees ρ [(v, w)] ↔ ρ v = ρ w := List.forall_mem_singleton

theorem agrees_append {pairs' : List (Nat × Nat)} :
    Agrees ρ (pairs ++ pairs') ↔ Agrees ρ pairs ∧ Agrees ρ pairs' :=
  List.forall_mem_append

/-- Lists of variables are compared pair by pair. -/
theorem forall_zip_iff_map_eq {α : Type} {f : Nat → α} {d e : List Nat}
    (hlength : d.length = e.length) :
    (∀ pair ∈ d.zip e, f pair.1 = f pair.2) ↔ d.map f = e.map f := by
  have hd : d.map f = (d.zip e).map (f ∘ Prod.fst) := by
    rw [← List.map_map, List.map_fst_zip hlength.le]
  have he : e.map f = (d.zip e).map (f ∘ Prod.snd) := by
    rw [← List.map_map, List.map_snd_zip hlength.ge]
  rw [hd, he, List.map_inj_left]
  exact Iff.rfl

/-- Operands agree pair by pair exactly if they have the same sorts in the same order. -/
theorem agrees_zip {d e : List Nat} (hlength : d.length = e.length) :
    Agrees ρ (d.zip e) ↔ d.map ρ = e.map ρ :=
  forall_zip_iff_map_eq hlength

/-! ## What can come of two representatives -/

/-- One of two representatives is a proper part of the sort of the other one. -/
def Knotted (a : SortArena) (r s : Nat) : Prop :=
  Relation.TransGen a.Child s r ∨ Relation.TransGen a.Child r s

theorem Knotted.symm (h : a.Knotted r s) : a.Knotted s r := Or.symm h

/-- Compressing paths neither ties nor unties representatives. -/
theorem Compressed.knotted_iff (h : Compressed a b) (ha : a.WellFormed) :
    b.Knotted r s ↔ a.Knotted r s := by
  rw [Knotted, Knotted, h.child_eq ha]

/-- Two representatives stand for arrows with different numbers of operands. -/
def Clash (a : SortArena) (r s : Nat) : Prop :=
  ∃ d e, a.operands? r = some d ∧ a.operands? s = some e ∧ d.length ≠ e.length

/-- Compressing paths leaves clashes as they are. -/
theorem Compressed.clash_iff (h : Compressed a b) : b.Clash r s ↔ a.Clash r s := by
  simp only [Clash, h.operands?_eq]

theorem Clash.symm (h : a.Clash r s) : a.Clash s r := by
  obtain ⟨d, e, hd, he, hne⟩ := h
  exact ⟨e, d, he, hd, hne.symm⟩

/-- An unknown sort clashes with nothing. -/
theorem not_clash_unknown (hr : a.operands? r = none) : ¬ a.Clash r s := by
  rintro ⟨d, e, hd, _⟩
  cases hr.symm.trans hd

/-- Arrows with the same number of operands do not clash. -/
theorem not_clash_arrows {d e : List Nat} (hd : a.operands? r = some d)
    (he : a.operands? s = some e) (hlength : d.length = e.length) : ¬ a.Clash r s := by
  rintro ⟨d', e', hd', he', hne⟩
  cases hd.symm.trans hd'
  cases he.symm.trans he'
  exact hne hlength

/-- All that can come of the representatives `r` and `s` of `v` and `w`. -/
inductive Outcome (a : SortArena) (v w r s : Nat) :
    Except UnifyError (List (Nat × Nat)) × SortArena → Prop
  | same : r = s → Outcome a v w r s (.ok [], a)
  | clash : r ≠ s → a.Clash r s → Outcome a v w r s (.error (.arity v w), a)
  | knotted {b : SortArena} : r ≠ s → ¬ a.Clash r s → a.Knotted r s → Compressed a b →
      Outcome a v w r s (.error (.occurs v w), b)
  | left {b : SortArena} : r ≠ s → a.operands? r = none → ¬ a.Knotted r s → Compressed a b →
      Outcome a v w r s (.ok [], b.link r s)
  | right {b : SortArena} : r ≠ s → a.operands? s = none → ¬ a.Knotted r s → Compressed a b →
      Outcome a v w r s (.ok [], b.link s r)
  | arrows {b : SortArena} {d e : List Nat} : r ≠ s → a.operands? r = some d →
      a.operands? s = some e → d.length = e.length → ¬ a.Knotted r s → Compressed a b →
      Outcome a v w r s (.ok (d.zip e), b.link r s)

/-- An unknown sort can only be a part of the other one, not the other way round. -/
theorem linkUnlessPart_outcome (h : a.WellFormed) (hr : a.operands? r = none)
    (cause : UnifyError) :
    ∃ b, Compressed a b ∧ ((a.Knotted r s ∧ a.linkUnlessPart cause r s = (.error cause, b)) ∨
      (¬ a.Knotted r s ∧ a.linkUnlessPart cause r s = (.ok [], b.link r s))) := by
  have hknotted : a.Knotted r s ↔ Relation.TransGen a.Child s r :=
    or_iff_left (not_part_of_unknown hr)
  obtain ⟨hcompressed, hanswer⟩ := h.occurs_spec r s
  rw [← hknotted] at hanswer
  unfold linkUnlessPart
  generalize a.occurs r s = answer at hcompressed hanswer
  obtain ⟨found, b⟩ := answer
  refine ⟨b, hcompressed, ?_⟩
  cases found with
  | true => exact Or.inl ⟨hanswer.mp rfl, rfl⟩
  | false => exact Or.inr ⟨mt hanswer.mpr Bool.false_ne_true, rfl⟩

/-- One step of unification comes to one of these outcomes. -/
theorem unifyRoots_outcome (h : a.WellFormed) (r s v w : Nat) :
    Outcome a v w r s (a.unifyRoots v w r s) := by
  unfold unifyRoots
  split
  · exact .same ‹r = s›
  rename_i hne
  split
  · rename_i hd he
    exact .left hne hd (not_or.mpr ⟨not_part_of_unknown he, not_part_of_unknown hd⟩) (.refl a)
  · rename_i e hd he
    obtain ⟨b, hcompressed, ⟨hknotted, heq⟩ | ⟨hknotted, heq⟩⟩ :=
      linkUnlessPart_outcome (s := s) h hd (.occurs v w)
    · rw [heq]
      exact .knotted hne (not_clash_unknown hd) hknotted hcompressed
    · rw [heq]
      exact .left hne hd hknotted hcompressed
  · rename_i d hd he
    obtain ⟨b, hcompressed, ⟨hknotted, heq⟩ | ⟨hknotted, heq⟩⟩ :=
      linkUnlessPart_outcome (s := r) h he (.occurs v w)
    · rw [heq]
      exact .knotted hne (fun h => not_clash_unknown he h.symm) hknotted.symm hcompressed
    · rw [heq]
      exact .right hne he (fun h => hknotted h.symm) hcompressed
  · rename_i d e hd he
    split
    · rename_i hlength
      exact .clash hne ⟨d, e, hd, he, hlength⟩
    · rename_i hlength
      obtain ⟨hcompressed, hanswer⟩ := h.occursEither_spec r s
      generalize a.occursEither r s = answer at hcompressed hanswer
      obtain ⟨found, b⟩ := answer
      have hlength' := not_not.mp hlength
      cases found with
      | true =>
        exact .knotted hne (not_clash_arrows hd he hlength') (hanswer.mp rfl) hcompressed
      | false => exact .arrows hne hd he hlength' (mt hanswer.mpr Bool.false_ne_true) hcompressed

/-! ## One step -/

/-- What the step for `v` and `w` leads to: an arena with the same variables, in which other pairs
take the place of this one, or an error because they have different sorts in all models. -/
structure Steps (a : SortArena) (v w : Nat) (answer : Except UnifyError (List (Nat × Nat)))
    (b : SortArena) : Prop where
  wellFormed : b.WellFormed
  size : b.cells.size = a.cells.size
  limit : b.limit = a.limit
  lt : ∀ pairs, answer = .ok pairs → ∀ pair ∈ pairs, pair.1 < a.cells.size ∧ pair.2 < a.cells.size
  fewer : ∀ pairs, answer = .ok pairs → pairs.length + b.operandCount ≤ a.operandCount
  ok : ∀ pairs, answer = .ok pairs → ∀ ρ, b.Models ρ ∧ Agrees ρ pairs ↔ a.Models ρ ∧ ρ v = ρ w
  error : ∀ e, answer = .error e → ∀ ρ, a.Models ρ → ρ v ≠ ρ w

/-- Paths may be compressed first. -/
theorem Steps.of_compressed {answer : Except UnifyError (List (Nat × Nat))}
    (h : Steps b v w answer c) (ha : a.WellFormed) (hab : Compressed a b) :
    Steps a v w answer c where
  wellFormed := h.wellFormed
  size := h.size.trans hab.size
  limit := h.limit.trans hab.limit
  lt pairs hanswer := hab.size ▸ h.lt pairs hanswer
  fewer pairs hanswer := hab.operandCount_eq ▸ h.fewer pairs hanswer
  ok pairs hanswer ρ := by rw [h.ok pairs hanswer, hab.models_iff ha]
  error e hanswer ρ hρ := h.error e hanswer ρ ((hab.models_iff ha).mpr hρ)

/-- The step may be made for the representatives. -/
theorem Steps.of_represents {answer : Except UnifyError (List (Nat × Nat))}
    (h : Steps a r s answer b) (hr : a.Represents v r) (hs : a.Represents w s) :
    Steps a v w answer b where
  wellFormed := h.wellFormed
  size := h.size
  limit := h.limit
  lt := h.lt
  fewer := h.fewer
  ok pairs hanswer ρ := by
    rw [h.ok pairs hanswer]
    refine and_congr_right fun hρ => ?_
    rw [hρ.eq_of_represents hr, hρ.eq_of_represents hs]
  error e hanswer ρ hρ := by
    rw [hρ.eq_of_represents hr, hρ.eq_of_represents hs]
    exact h.error e hanswer ρ hρ

/-- The two variables may be exchanged. -/
theorem Steps.symm {answer : Except UnifyError (List (Nat × Nat))} (h : Steps a v w answer b) :
    Steps a w v answer b where
  wellFormed := h.wellFormed
  size := h.size
  limit := h.limit
  lt := h.lt
  fewer := h.fewer
  ok pairs hanswer ρ := by rw [h.ok pairs hanswer, eq_comm]
  error e hanswer ρ hρ := (h.error e hanswer ρ hρ).symm

/-- Two different representatives. -/
structure Roots (a : SortArena) (r s : Nat) : Prop where
  left : ∀ x, ¬ a.Linked r x
  left_lt : r < a.cells.size
  right : ∀ x, ¬ a.Linked s x
  right_lt : s < a.cells.size
  ne : r ≠ s

/-- Different representatives stay so when paths are compressed. -/
theorem Roots.of_compressed (h : Roots a r s) (hab : Compressed a b) : Roots b r s where
  left := (hab.represents (.refl h.left)).last
  left_lt := hab.size ▸ h.left_lt
  right := (hab.represents (.refl h.right)).last
  right_lt := hab.size ▸ h.right_lt
  ne := h.ne

/-- A variable can be unified with itself without doing anything. -/
theorem steps_same (h : a.WellFormed) (r : Nat) : Steps a r r (.ok []) a where
  wellFormed := h
  size := rfl
  limit := rfl
  lt := by
    rintro _ ⟨⟩ pair hpair
    cases hpair
  fewer := by
    rintro _ ⟨⟩
    simp
  ok := by
    rintro _ ⟨⟩ ρ
    simp [Agrees]
  error := nofun

/-- A step may fail if no model gives the two variables the same sort. -/
theorem steps_error (h : a.WellFormed) {e : UnifyError} (hne : ∀ ρ, a.Models ρ → ρ r ≠ ρ s) :
    Steps a r s (.error e) a where
  wellFormed := h
  size := rfl
  limit := rfl
  lt := nofun
  fewer := nofun
  ok := nofun
  error _ _ := hne

/-- An unknown sort is linked. -/
theorem steps_unknown (h : a.WellFormed) (hroots : Roots a r s) (hr : a.operands? r = none)
    (hpart : ¬ Relation.TransGen a.Child s r) : Steps a r s (.ok []) (a.link r s) where
  wellFormed := h.link hroots.right hroots.right_lt hroots.ne hroots.left hpart
  size := by simp [SortArena.link]
  limit := rfl
  lt := by
    rintro _ ⟨⟩ pair hpair
    cases hpair
  fewer := by
    rintro _ ⟨⟩
    have hcount := operandCount_link hroots.left_lt s
    rw [List.length_nil]
    omega
  ok := by
    rintro _ ⟨⟩ ρ
    rw [models_link_unknown (unknown_of_operands? hroots.left hroots.left_lt hr)]
    simp [Agrees]
  error := nofun

/-- An arrow is linked, and its operands are still to be unified with those of the other one. -/
theorem steps_arrow (h : a.WellFormed) (hroots : Roots a r s) {d e : List Nat}
    (hd : a.operands? r = some d) (he : a.operands? s = some e) (hlength : d.length = e.length)
    (hpart : ¬ Relation.TransGen a.Child s r) : Steps a r s (.ok (d.zip e)) (a.link r s) where
  wellFormed := h.link hroots.right hroots.right_lt hroots.ne hroots.left hpart
  size := by simp [SortArena.link]
  limit := rfl
  lt := by
    rintro _ ⟨⟩ ⟨x, y⟩ hpair
    obtain ⟨hx, hy⟩ := List.of_mem_zip hpair
    exact ⟨h.lt_size (Or.inr ⟨d, arrow_of_operands? hd, hx⟩),
      h.lt_size (Or.inr ⟨e, arrow_of_operands? he, hy⟩)⟩
  fewer := by
    rintro _ ⟨⟩
    have hcount := operandCount_link hroots.left_lt s
    rw [hd, Option.getD_some] at hcount
    rw [List.length_zip]
    omega
  ok := by
    rintro _ ⟨⟩ ρ
    rw [agrees_zip hlength]
    exact models_link_arrow (arrow_of_operands? hd) (arrow_of_operands? he) hroots.ne
  error := nofun

/-- What is done for two representatives is a step for them. -/
theorem unifyRoots_spec (h : a.WellFormed) (hrlt : r < a.cells.size)
    (hr : ∀ x, ¬ a.Linked r x) (hslt : s < a.cells.size) (hs : ∀ x, ¬ a.Linked s x) (v w : Nat) :
    Steps a r s (a.unifyRoots v w r s).1 (a.unifyRoots v w r s).2 := by
  have houtcome := unifyRoots_outcome h r s v w
  generalize a.unifyRoots v w r s = result at houtcome
  cases houtcome with
  | same hsame => exact hsame ▸ steps_same h r
  | clash hne hclash =>
    -- Arrows with different numbers of operands are equal in no model.
    obtain ⟨d, e, hd, he, hlength⟩ := hclash
    refine steps_error h fun ρ hρ heq => hlength ?_
    rw [hρ.arrow (arrow_of_operands? hd), hρ.arrow (arrow_of_operands? he)] at heq
    have hmap := congrArg List.length (GroundSort.arrow.inj heq)
    rwa [List.length_map, List.length_map] at hmap
  | knotted hne hclash hknotted hcompressed =>
    have hb := hcompressed.wellFormed h
    rw [← hcompressed.knotted_iff h] at hknotted
    refine (steps_error hb fun ρ hρ => ?_).of_compressed h hcompressed
    rcases hknotted with hpart | hpart
    · exact hρ.ne_of_part hpart
    · exact (hρ.ne_of_part hpart).symm
  | left hne hd hknotted hcompressed =>
    have hb := hcompressed.wellFormed h
    have hroots : Roots a r s := ⟨hr, hrlt, hs, hslt, hne⟩
    rw [← hcompressed.operands?_eq] at hd
    rw [← hcompressed.knotted_iff h] at hknotted
    exact (steps_unknown hb (hroots.of_compressed hcompressed) hd
      (not_or.mp hknotted).1).of_compressed h hcompressed
  | right hne he hknotted hcompressed =>
    have hb := hcompressed.wellFormed h
    have hroots : Roots a s r := ⟨hs, hslt, hr, hrlt, hne.symm⟩
    rw [← hcompressed.operands?_eq] at he
    rw [← hcompressed.knotted_iff h] at hknotted
    exact (steps_unknown hb (hroots.of_compressed hcompressed) he
      (not_or.mp hknotted).2).symm.of_compressed h hcompressed
  | arrows hne hd he hlength hknotted hcompressed =>
    have hb := hcompressed.wellFormed h
    have hroots : Roots a r s := ⟨hr, hrlt, hs, hslt, hne⟩
    rw [← hcompressed.operands?_eq] at hd he
    rw [← hcompressed.knotted_iff h] at hknotted
    -- The link leads from `r` to `s`, so only a way back from `s` to `r` would close a cycle.
    exact (steps_arrow hb (hroots.of_compressed hcompressed) hd he hlength
      (not_or.mp hknotted).1).of_compressed h hcompressed

/-- What is done for two variables is a step for them. -/
theorem unifyOnce_spec (h : a.WellFormed) (hv : v < a.cells.size) (hw : w < a.cells.size) :
    Steps a v w (a.unifyOnce v w).1 (a.unifyOnce v w).2 := by
  obtain ⟨hr, hfirst⟩ := h.find_spec v
  obtain ⟨hs, hsecond⟩ := (hfirst.wellFormed h).find_spec w
  have hboth := hfirst.trans hsecond
  have hr' := hboth.represents hr
  have hs' := hsecond.represents hs
  have hb := hboth.wellFormed h
  have hsteps := unifyRoots_spec hb (hb.lt_of_represents (hboth.size ▸ hv) hr') hr'.last
    (hb.lt_of_represents (hboth.size ▸ hw) hs') hs'.last v w
  exact (hsteps.of_represents hr' hs').of_compressed h hboth

/-! ## All steps -/

/-- What unifying the pairs of a list in `a` leads to: an arena whose models are those of `a` in
which all pairs agree, or an error because there is no such model. -/
structure Solves (a : SortArena) (pairs : List (Nat × Nat)) (answer : Except UnifyError Unit)
    (b : SortArena) : Prop where
  wellFormed : b.WellFormed
  size : b.cells.size = a.cells.size
  limit : b.limit = a.limit
  ok : answer = .ok () → ∀ ρ, b.Models ρ ↔ a.Models ρ ∧ Agrees ρ pairs
  error : ∀ e, answer = .error e → ∀ ρ, a.Models ρ → ¬ Agrees ρ pairs

/-- A step may come before. -/
theorem Solves.of_steps {more : List (Nat × Nat)} {answer : Except UnifyError Unit}
    (hstep : Steps a v w (.ok more) b) (h : Solves b (more ++ pairs) answer c) :
    Solves a ((v, w) :: pairs) answer c := by
  have hmodels : ∀ ρ, b.Models ρ ∧ Agrees ρ (more ++ pairs) ↔
      a.Models ρ ∧ Agrees ρ ((v, w) :: pairs) := by
    intro ρ
    rw [agrees_append, agrees_cons, ← and_assoc, ← and_assoc, hstep.ok more rfl]
  refine ⟨h.wellFormed, h.size.trans hstep.size, h.limit.trans hstep.limit, fun hanswer ρ => ?_,
    fun e hanswer ρ hρ hagrees => ?_⟩
  · exact (h.ok hanswer ρ).trans (hmodels ρ)
  · obtain ⟨hb, hagrees'⟩ := (hmodels ρ).mpr ⟨hρ, hagrees⟩
    exact h.error e hanswer ρ hb hagrees'

/-- The pairs that are left after a step are pairs of variables of the arena. -/
theorem Steps.lt_of_append {more : List (Nat × Nat)} (hstep : Steps a v w (.ok more) b)
    (hpairs : ∀ pair ∈ (v, w) :: pairs, pair.1 < a.cells.size ∧ pair.2 < a.cells.size) :
    ∀ pair ∈ more ++ pairs, pair.1 < b.cells.size ∧ pair.2 < b.cells.size := by
  intro pair hpair
  rw [hstep.size]
  rcases List.mem_append.mp hpair with hmore | hrest
  · exact hstep.lt more rfl pair hmore
  · exact hpairs pair (List.mem_cons_of_mem _ hrest)

/-- The new pairs are paid for by the operands that are not counted any longer. -/
theorem Steps.work_lt {more : List (Nat × Nat)} (hstep : Steps a v w (.ok more) b)
    (pairs : List (Nat × Nat)) :
    (more ++ pairs).length + b.operandCount < ((v, w) :: pairs).length + a.operandCount := by
  have hfewer := hstep.fewer more rfl
  rw [List.length_append, List.length_cons]
  omega

/-- Unifying the pairs of a list ends before the steps do. -/
theorem unifyPairs_spec (h : a.WellFormed)
    (hpairs : ∀ pair ∈ pairs, pair.1 < a.cells.size ∧ pair.2 < a.cells.size) {steps : Nat}
    (hsteps : pairs.length + a.operandCount < steps) :
    Solves a pairs (unifyPairs steps a pairs).1 (unifyPairs steps a pairs).2 := by
  induction steps generalizing a pairs with
  | zero => exact absurd hsteps (Nat.not_lt_zero _)
  | succ steps ih =>
    cases pairs with
    | nil => exact ⟨h, rfl, rfl, fun _ ρ => by simp [unifyPairs, Agrees], nofun⟩
    | cons pair pairs =>
      obtain ⟨v, w⟩ := pair
      obtain ⟨hv, hw⟩ := hpairs _ List.mem_cons_self
      have hstep := unifyOnce_spec h hv hw
      simp only [unifyPairs]
      generalize a.unifyOnce v w = answer at hstep
      obtain ⟨_ | more, b⟩ := answer
      · refine ⟨hstep.wellFormed, hstep.size, hstep.limit, nofun, fun e _ ρ hρ hagrees => ?_⟩
        exact hstep.error _ rfl ρ hρ (agrees_cons.mp hagrees).1
      · refine Solves.of_steps hstep (ih hstep.wellFormed (hstep.lt_of_append hpairs) ?_)
        exact Nat.lt_of_lt_of_le (hstep.work_lt pairs) (Nat.le_of_lt_succ hsteps)

/-- Unification stays within its steps. -/
theorem WellFormed.unify_spec (h : a.WellFormed) (hv : v < a.cells.size) (hw : w < a.cells.size) :
    Solves a [(v, w)] (a.unify v w).1 (a.unify v w).2 := by
  refine unifyPairs_spec h (fun pair hpair => ?_) ?_
  · rw [List.mem_singleton.mp hpair]
    exact ⟨hv, hw⟩
  · rw [List.length_singleton]
    omega

/-! ## Arenas that can be reached -/

/-- The arenas that a series of calls can lead to, whether unification succeeds in them or not. -/
inductive Reachable : SortArena → Prop
  | withLimit (limit : Nat) : Reachable (withLimit limit)
  | fresh {a b : SortArena} {v : Nat} : Reachable a → a.fresh = some (v, b) → Reachable b
  | arrow {a b : SortArena} {v : Nat} {operands : List Nat} : Reachable a →
      (∀ w ∈ operands, w < a.cells.size) → a.arrow operands = some (v, b) → Reachable b
  | unify {a : SortArena} {v w : Nat} : Reachable a → v < a.cells.size → w < a.cells.size →
      Reachable (a.unify v w).2

/-- No series of calls closes a cycle. -/
theorem Reachable.wellFormed (h : a.Reachable) : a.WellFormed := by
  induction h with
  | withLimit limit => exact wellFormed_withLimit limit
  | fresh _ hb ih => exact ih.fresh hb
  | arrow _ hlt hb ih => exact ih.arrow hlt hb
  | unify _ hv hw ih => exact (ih.unify_spec hv hw).wellFormed

/-- Unification succeeds with exactly the models in which both variables have the same sort, and
fails if there are none. -/
theorem unify_most_general (ha : a.Reachable) (hv : v < a.cells.size) (hw : w < a.cells.size) :
    ((a.unify v w).1 = .ok () →
        ∀ ρ, (a.unify v w).2.Models ρ ↔ a.Models ρ ∧ ρ v = ρ w) ∧
      ∀ e, (a.unify v w).1 = .error e → ∀ ρ, a.Models ρ → ρ v ≠ ρ w := by
  have hsolves := ha.wellFormed.unify_spec hv hw
  refine ⟨fun hok ρ => ?_, fun e herror ρ hρ heq => ?_⟩
  · exact (hsolves.ok hok ρ).trans (and_congr_right' agrees_singleton)
  · exact hsolves.error e herror ρ hρ (agrees_singleton.mpr heq)

/-- A function of one argument of an unknown sort. -/
def unaryFunction : SortArena := ⟨#[.arrow [], .unknown, .arrow [1]], defaultLimit⟩

theorem unify_most_general_unaryFunction :
    unaryFunction.Reachable ∧ 0 < unaryFunction.cells.size ∧ 1 < unaryFunction.cells.size ∧
      2 < unaryFunction.cells.size ∧
      (unaryFunction.unify 1 0).1 = .ok () ∧
      (∀ ρ, (unaryFunction.unify 1 0).2.Models ρ ↔ unaryFunction.Models ρ ∧ ρ 1 = ρ 0) ∧
      (unaryFunction.unify 2 1).1 = .error (.occurs 2 1) ∧
      ∀ ρ, unaryFunction.Models ρ → ρ 2 ≠ ρ 1 := by
  have hreachable : unaryFunction.Reachable := by
    have hfresh : Reachable ⟨#[.arrow [], .unknown], defaultLimit⟩ :=
      .fresh (.withLimit defaultLimit) rfl
    have hlt : ∀ w ∈ [1], w < 2 := by decide
    exact .arrow hfresh hlt rfl
  have hok : (unaryFunction.unify 1 0).1 = .ok () := by decide +kernel
  have herror : (unaryFunction.unify 2 1).1 = .error (.occurs 2 1) := by decide +kernel
  have hzero : 0 < unaryFunction.cells.size := by decide
  have hone : 1 < unaryFunction.cells.size := by decide
  have htwo : 2 < unaryFunction.cells.size := by decide
  exact ⟨hreachable, hzero, hone, htwo, hok, (unify_most_general hreachable hone hzero).1 hok,
    herror, (unify_most_general hreachable htwo hone).2 _ herror⟩

end SortArena
end ParserGen
