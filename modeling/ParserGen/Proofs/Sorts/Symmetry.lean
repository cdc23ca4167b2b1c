import Mathlib.Data.List.Zip
import ParserGen.Proofs.Sorts.Alike

/-!
# Unification is symmetric

A run that unifies two variables is compared with one for the same variables in the opposite order.
The two link representatives in opposite directions, and go on with the same operands in the same
order, but with the two sides swapped.  Until these are unified, the arenas disagree about what the
operands of the two variables are.  But as neither variable is a part of its own operands, no run
looks at them before that, and afterwards both lists of operands are the same.

Main results:

- Theorem `SortArena.Alike.joined`: two alike arenas have the same answer to a swapped pair.
- Theorem `SortArena.UnifiesAll.mirrored`: runs for swapped pairs go hand in hand.
- Theorem `SortArena.unify_symm`: the order of the two variables does not matter to unification.
-/

namespace ParserGen

/-- The two errors differ in the variables that they name at most. -/
inductive UnifyError.SameVariant : UnifyError → UnifyError → Prop
  | arity (v w v' w' : Nat) : SameVariant (.arity v w) (.arity v' w')
  | occurs (v w v' w' : Nat) : SameVariant (.occurs v w) (.occurs v' w')

namespace SortArena

variable {a b c d : SortArena} {S T : Set Nat} {v v' w w' x t t' : Nat}
  {pairs pairs' : List (Nat × Nat)}

/-! ## Swapped pairs -/

/-- The pairs of variables in `S` that one run is to unify, and those that the other one is to unify
in the same order, but with the two sides swapped. -/
structure Crossed (a : SortArena) (S : Set Nat) (pairs pairs' : List (Nat × Nat)) : Prop where
  mem : ∀ pair ∈ pairs, pair.1 ∈ S ∧ pair.2 ∈ S
  swap : pairs.map (Prod.map a.root a.root) =
    (pairs'.map Prod.swap).map (Prod.map a.root a.root)

namespace Crossed

/-- Without pairs on one side there are none on the other side. -/
theorem eq_nil (h : Crossed a S [] pairs') : pairs' = [] := by
  have hswap := h.swap.symm
  rwa [List.map_nil, List.map_eq_nil_iff, List.map_eq_nil_iff] at hswap

/-- The first pair of one side has a crossed one on the other side. -/
theorem exists_cons (h : Crossed a S ((v, w) :: pairs) pairs') :
    ∃ v' w' rest, pairs' = (w', v') :: rest ∧ v ∈ S ∧ w ∈ S ∧ a.root v' = a.root v ∧
      a.root w' = a.root w ∧ Crossed a S pairs rest := by
  obtain ⟨hpair, hmem⟩ := List.forall_mem_cons.mp h.mem
  cases pairs' with
  | nil => cases h.swap
  | cons pair' rest =>
    obtain ⟨w', v'⟩ := pair'
    obtain ⟨hsame, hrest⟩ := List.cons.inj h.swap
    obtain ⟨hv, hw⟩ := Prod.mk.inj hsame
    exact ⟨v', w', rest, rfl, hpair.1, hpair.2, hv.symm, hw.symm, hmem, hrest⟩

/-- Pairs stay crossed when classes of the region are merged. -/
theorem of_confined (h : Crossed a S pairs pairs') (hc : Confined a c S) :
    Crossed c S pairs pairs' where
  mem := h.mem
  swap := by
    have hmap := congrArg (List.map (Prod.map c.root c.root)) h.swap
    rwa [List.map_map, List.map_map, Prod.map_comp_map, hc.factors] at hmap

end Crossed

/-- Two runs that began in `a` and `b` have ended in `c` and `d`, which are alike, and the pairs are
unified in them. -/
structure Completed (a b : SortArena) (S : Set Nat) (pairs : List (Nat × Nat)) (c d : SortArena) :
    Prop where
  alike : Alike c d S
  left : Confined a c S
  right : Confined b d S
  unified : ∀ pair ∈ pairs, c.root pair.1 = c.root pair.2

/-- Two runs that began in `a` and `b` have both succeeded, or failed with the same variant of an
error. -/
inductive Mirrored (a b : SortArena) (S : Set Nat) (pairs : List (Nat × Nat)) :
    Except UnifyError Unit × SortArena → Except UnifyError Unit × SortArena → Prop
  | completed {c d : SortArena} : Completed a b S pairs c d →
      Mirrored a b S pairs (.ok (), c) (.ok (), d)
  | failed {c d : SortArena} {e e' : UnifyError} : e.SameVariant e' →
      Mirrored a b S pairs (.error e, c) (.error e', d)

/-- Two runs that began in `a` and `b` will have unified `v` and `w` when they have unified pairs
that are crossed, or they have failed with the same variant of an error. -/
inductive Answered (a b : SortArena) (S : Set Nat) (v w : Nat) :
    Except UnifyError (List (Nat × Nat)) × SortArena →
      Except UnifyError (List (Nat × Nat)) × SortArena → Prop
  | goesOn {c d : SortArena} {T : Set Nat} {more more' : List (Nat × Nat)} : Alike c d T →
      Crossed c T more more' →
      (∀ c' d', Completed c d T more c' d' → Completed a b S [(v, w)] c' d') →
      Answered a b S v w (.ok more, c) (.ok more', d)
  | failed {c d : SortArena} {e e' : UnifyError} : e.SameVariant e' →
      Answered a b S v w (.error e, c) (.error e', d)

/-! ## Variables that are one already -/

/-- Arenas stay alike while paths are compressed. -/
theorem Alike.of_compressed (h : Alike a b S) (hc : Compressed a c) (hd : Compressed b d) :
    Alike c d S where
  left := (h.left.confined_of_compressed hc).region
  right := (h.right.confined_of_compressed hd).region
  root_iff x y := by
    simp only [hc.root_eq h.left.wellFormed, hd.root_eq h.right.wellFormed, h.root_iff]
  domain x hx := by
    rw [hc.domain?_eq h.left.wellFormed, hd.domain?_eq h.right.wellFormed,
      funext (hc.root_eq h.left.wellFormed), h.domain x hx]

/-- Two variables of one class are unified without a change on both sides. -/
theorem Alike.answered_same (h : Alike a b S) (hsame : a.root v = a.root w)
    (hc : Compressed a c) (hd : Compressed b d) :
    Answered a b S v w (.ok [], c) (.ok [], d) := by
  have hleft := h.left.confined_of_compressed hc
  have hright := h.right.confined_of_compressed hd
  refine .goesOn (h.of_compressed hc hd) ⟨nofun, rfl⟩ fun c' d' hcompleted => ?_
  have hleft' := hleft.trans hcompleted.left
  refine ⟨hcompleted.alike, hleft', hright.trans hcompleted.right,
    List.forall_mem_singleton.mpr ?_⟩
  rw [← hleft'.factors, Function.comp_apply, Function.comp_apply, hsame]

/-! ## Classes that are merged -/

/-- The variables of `S` of which neither `v` nor `w` is a part. -/
def clearOf (a : SortArena) (S : Set Nat) (v w : Nat) : Set Nat :=
  {x ∈ S | ¬ Relation.ReflTransGen a.Child (a.root x) (a.root v) ∧
    ¬ Relation.ReflTransGen a.Child (a.root x) (a.root w)}

/-- A region without what two of its variables are part of is a region. -/
theorem Region.clearOf (h : Region a S) (v w : Nat) : Region a (a.clearOf S v w) where
  wellFormed := h.wellFormed
  lt x hx := h.lt x hx.1
  root x := by simp only [SortArena.clearOf, Set.mem_ofPred_eq, h.root, h.wellFormed.root_root]
  operands x hx operands hoperands y hy := by
    have hchild : a.Child (a.root x) (a.root y) :=
      h.wellFormed.child_iff.mpr ⟨operands, hoperands, y, hy, rfl⟩
    exact ⟨h.operands x hx.1 operands hoperands y hy, fun hpath => hx.2.1 (.head hchild hpath),
      fun hpath => hx.2.2 (.head hchild hpath)⟩

/-- What is clear of two variables has none of their classes. -/
theorem not_mem_clearOf (hx : a.root x = a.root v ∨ a.root x = a.root w) :
    x ∉ a.clearOf S v w := by
  rintro ⟨_, hv, hw⟩
  rcases hx with hx | hx
  · exact hv (hx ▸ .refl)
  · exact hw (hx ▸ .refl)

/-- The operands of `v` have neither `v` nor `w` as a part, unless one of these two is a part of the
other one. -/
theorem Region.mem_clearOf (h : Region a S) (hv : v ∈ S)
    (hknotted : ¬ a.Knotted (a.root v) (a.root w)) {operands : List Nat}
    (hoperands : a.domain? v = some operands) (hx : x ∈ operands) : x ∈ a.clearOf S v w := by
  have hchild : a.Child (a.root v) (a.root x) :=
    h.wellFormed.child_iff.mpr ⟨operands, hoperands, x, hx, rfl⟩
  refine ⟨h.operands v hv operands hoperands x hx, fun hpath => ?_, fun hpath => ?_⟩
  · exact h.wellFormed.acyclic_child _ (.head' hchild hpath)
  · exact hknotted (Or.inr (.head' hchild hpath))

/-- To be clear of two variables is the same the other way round. -/
theorem clearOf_comm : a.clearOf S v w = a.clearOf S w v := by
  simp only [clearOf, and_comm]

/-- A region that has none of two variables stays as it is when they are merged. -/
theorem Region.of_merges (h : Region a T) (hv : v ∉ T) (hw : w ∉ T) (hc : a.Merges v w t c) :
    Region c T ∧ ∀ x ∈ T, c.domain? x = a.domain? x := by
  have hother : ∀ x ∈ T, c.root x = a.root x := by
    intro x hx
    rw [hc.root, if_neg]
    rintro (hsame | hsame)
    · exact hv (h.mem_of_root_eq hx hsame.symm)
    · exact hw (h.mem_of_root_eq hx hsame.symm)
  have hdomain : ∀ x ∈ T, c.domain? x = a.domain? x := by
    intro x hx
    rw [hc.domain, hother x hx, h.wellFormed.domain?_root]
  refine ⟨⟨hc.wellFormed, fun x hx => hc.size ▸ h.lt x hx, fun x => ?_, fun x hx operands => ?_⟩,
    hdomain⟩
  · constructor
    · rw [hc.root]
      split
      · intro ht
        rcases hc.survivor with rfl | rfl
        · exact absurd ((h.root v).mp ht) hv
        · exact absurd ((h.root w).mp ht) hw
      · exact (h.root x).mp
    · intro hx
      rw [hother x hx]
      exact (h.root x).mpr hx
  · rw [hdomain x hx]
    exact h.operands x hx operands

namespace Alike

theorem clearOf (h : Alike a b S) (v w : Nat) : Alike a b (a.clearOf S v w) :=
  h.restrict (Set.sep_subset _ _) (h.left.clearOf v w)

/-- Merging the same classes on both sides gives the same classes. -/
theorem root_iff_of_merges (h : Alike a b S) (hc : a.Merges v w t c) (hd : b.Merges v w t' d)
    (x y : Nat) : c.root x = c.root y ↔ d.root x = d.root y := by
  simp only [hc.root_eq_iff, hd.root_eq_iff, h.root_iff]

/-- Where neither of the merged classes is a part, the arenas are as they were. -/
theorem of_merges (h : Alike a b S) (hc : a.Merges v w t c) (hd : b.Merges v w t' d) :
    Alike c d (a.clearOf S v w) := by
  have hv : v ∉ a.clearOf S v w := not_mem_clearOf (Or.inl rfl)
  have hw : w ∉ a.clearOf S v w := not_mem_clearOf (Or.inr rfl)
  have hclear := h.clearOf v w
  obtain ⟨hleft, hsame⟩ := hclear.left.of_merges hv hw hc
  obtain ⟨hright, hsame'⟩ := hclear.right.of_merges hv hw hd
  refine ⟨hleft, hright, h.root_iff_of_merges hc hd, fun x hx => ?_⟩
  rw [hsame x hx, hsame' x hx]
  exact hclear.map_domain (hc.factors h.left.wellFormed) hx

/-- The operands of two arrows make crossed pairs. -/
theorem crossed_operandPairs (h : Alike a b S) (hv : v ∈ S) (hw : w ∈ S)
    (hknotted : ¬ a.Knotted (a.root v) (a.root w)) (hc : c.root ∘ a.root = c.root) :
    Crossed c (a.clearOf S v w) (a.operandPairs v w) (b.operandPairs w v) where
  mem := by
    rintro ⟨x, y⟩ hpair
    obtain ⟨hx, hy⟩ := List.of_mem_zip hpair
    obtain ⟨d, hd, hx⟩ := mem_operands.mp hx
    obtain ⟨e, he, hy⟩ := mem_operands.mp hy
    refine ⟨h.left.mem_clearOf hv hknotted (operands?_of_arrow hd) hx, ?_⟩
    rw [clearOf_comm]
    exact h.left.mem_clearOf hw (fun hpart => hknotted hpart.symm) (operands?_of_arrow he) hy
  swap := by
    have hsame {x : Nat} (hx : x ∈ S) : ((a.domain? x).getD []).map c.root =
        ((b.domain? x).getD []).map c.root := by
      rw [← Option.getD_map (List.map c.root), ← Option.getD_map (List.map c.root),
        h.map_domain hc hx]
    rw [operandPairs, operandPairs, List.zip_swap, ← List.zip_map, ← List.zip_map, hsame hv,
      hsame hw]

/-- Once the operands of both variables are the same, it does not matter which of them an arena has
kept. -/
theorem map_domain_of_merges (h : Alike a b S) (hv : v ∈ S) (hw : w ∈ S)
    (hc : a.Merges v w t c) (hd : b.Merges v w t' d) {f : Nat → Nat} (hf : f ∘ a.root = f)
    (hequal : ∀ d e, (a.domain? v).map (List.map f) = some d →
      (a.domain? w).map (List.map f) = some e → d = e) (hx : x ∈ S) :
    (c.domain? x).map (List.map f) = (d.domain? x).map (List.map f) := by
  have hdomain {x : Nat} (hx : x ∈ S) := h.map_domain hf hx
  rw [hc.domain, hd.domain]
  by_cases hmerged : a.root x = a.root v ∨ a.root x = a.root w
  · have hmerged' : b.root x = b.root v ∨ b.root x = b.root w := by
      rwa [← h.root_iff, ← h.root_iff]
    rw [hc.root_eq_survivor hmerged, hd.root_eq_survivor hmerged',
      hc.map_domain h.left.wellFormed hequal, hd.map_domain h.right.wellFormed, hdomain hv,
      hdomain hw]
    rwa [← hdomain hv, ← hdomain hw]
  · have hmerged' : ¬ (b.root x = b.root v ∨ b.root x = b.root w) := by
      rwa [← h.root_iff, ← h.root_iff]
    rw [hc.root, if_neg hmerged, hd.root, if_neg hmerged', h.left.wellFormed.domain?_root,
      h.right.wellFormed.domain?_root]
    exact hdomain hx

/-- Two runs have unified `v` and `w` when they have merged their classes and then unified their
operands. -/
theorem completed_of_merges (h : Alike a b S) (hv : v ∈ S) (hw : w ∈ S)
    (hclash : ¬ a.Clash (a.root v) (a.root w)) (hc : a.Merges v w t c) (hd : b.Merges v w t' d)
    {c' d' : SortArena}
    (hcompleted : Completed c d (a.clearOf S v w) (a.operandPairs v w) c' d') :
    Completed a b S [(v, w)] c' d' := by
  have hsubset : a.clearOf S v w ⊆ S := Set.sep_subset _ _
  have hstep := h.left.confined_of_merges hv hw hc
  have hstep' := h.right.confined_of_merges hv hw hd
  have hleft := hstep.trans (hcompleted.left.widen hstep.region hsubset)
  have hright := hstep'.trans (hcompleted.right.widen hstep'.region hsubset)
  have hequal := map_domain_eq_of_unified hclash hcompleted.unified
  refine ⟨⟨hleft.region, hright.region, hcompleted.alike.root_iff, fun x hx => ?_⟩, hleft, hright,
    List.forall_mem_singleton.mpr ?_⟩
  · by_cases hclear : x ∈ a.clearOf S v w
    · exact hcompleted.alike.domain x hclear
    · rw [hcompleted.left.domain x hclear, hcompleted.right.domain x hclear]
      exact h.map_domain_of_merges hv hw hc hd hleft.factors hequal hx
  · have hsame : c.root v = c.root w := hc.root_eq_iff.mpr (Or.inr ⟨Or.inl rfl, Or.inr rfl⟩)
    rw [← hcompleted.left.factors, Function.comp_apply, Function.comp_apply, hsame]

/-- Two alike arenas have the same answer to a pair whose sides are swapped. -/
theorem joined (h : Alike a b S) (hv : v ∈ S) (hw : w ∈ S) (hv' : a.root v' = a.root v)
    (hw' : a.root w' = a.root w)
    {result result' : Except UnifyError (List (Nat × Nat)) × SortArena}
    (hleft : a.Joined v w result) (hright : b.Joined w' v' result') :
    Answered a b S v w result result' := by
  have hbv : b.root v' = b.root v := (h.root_iff _ _).mp hv'
  have hbw : b.root w' = b.root w := (h.root_iff _ _).mp hw'
  have hpairs : b.operandPairs w' v' = b.operandPairs w v := by
    simp only [operandPairs, domain?, hbv, hbw]
  -- What decides about the answer is the same in both arenas and for both orders.
  have hsame : b.root w = b.root v ↔ a.root v = a.root w := by
    rw [h.root_iff, eq_comm]
  have hclash : b.Clash (b.root w) (b.root v) ↔ a.Clash (a.root v) (a.root w) := by
    rw [h.clash_iff hv hw]
    exact ⟨Clash.symm, Clash.symm⟩
  have hknotted : b.Knotted (b.root w) (b.root v) ↔ a.Knotted (a.root v) (a.root w) := by
    rw [h.knotted_iff hv hw]
    exact ⟨Knotted.symm, Knotted.symm⟩
  unfold Joined at hleft hright
  rw [hpairs, hbv, hbw] at hright
  classical
  simp only [hsame, hclash, hknotted] at hright
  clear hsame hclash hknotted
  by_cases hsame : a.root v = a.root w
  · rw [if_pos hsame] at hleft hright
    obtain ⟨c, rfl, hc⟩ := hleft
    obtain ⟨d, rfl, hd⟩ := hright
    exact h.answered_same hsame hc hd
  rw [if_neg hsame] at hleft hright
  by_cases hclash : a.Clash (a.root v) (a.root w)
  · rw [if_pos hclash] at hleft hright
    obtain ⟨c, rfl⟩ := hleft
    obtain ⟨d, rfl⟩ := hright
    exact .failed (.arity ..)
  rw [if_neg hclash] at hleft hright
  by_cases hknotted : a.Knotted (a.root v) (a.root w)
  · rw [if_pos hknotted] at hleft hright
    obtain ⟨c, rfl⟩ := hleft
    obtain ⟨d, rfl⟩ := hright
    exact .failed (.occurs ..)
  rw [if_neg hknotted] at hleft hright
  obtain ⟨c, rfl, t, hc⟩ := hleft
  obtain ⟨d, rfl, t', hd⟩ := hright
  have hd' : b.Merges v w t' d := (hd.congr hbw hbv).symm
  exact .goesOn (h.of_merges hc hd')
    (h.crossed_operandPairs hv hw hknotted (hc.factors h.left.wellFormed))
    fun _ _ => h.completed_of_merges hv hw hclash hc hd'

/-- Two variables are joined alike on both sides, whichever of them comes first. -/
theorem joins (h : Alike a b S) (hv : v ∈ S) (hw : w ∈ S) (hv' : a.root v' = a.root v)
    (hw' : a.root w' = a.root w)
    {result result' : Except UnifyError (List (Nat × Nat)) × SortArena}
    (hleft : a.Joins v w result) (hright : b.Joins w' v' result') :
    Answered a b S v w result result' := by
  have hlt' {x y : Nat} (hx : x ∈ S) (hy : a.root y = a.root x) : y < b.cells.size :=
    h.right.lt y (h.left.mem_of_root_eq hx hy)
  rw [h.left.wellFormed.joins_iff] at hleft
  rw [h.right.wellFormed.joins_iff] at hright
  refine h.joined hv hw hv' hw' ?_ ?_
  · rw [hleft]
    exact h.left.wellFormed.joined_unifyOnce (h.left.lt v hv) (h.left.lt w hw)
  · rw [hright]
    exact h.right.wellFormed.joined_unifyOnce (hlt' hw hw') (hlt' hv hv')

end Alike

/-! ## Runs -/

/-- Runs that have unified a pair go on with the pairs after it. -/
theorem Completed.cons {result result' : Except UnifyError Unit × SortArena}
    (h : Completed a b S [(v, w)] c d) (hrest : Mirrored c d S pairs result result') :
    Mirrored a b S ((v, w) :: pairs) result result' := by
  cases hrest with
  | failed hsame => exact .failed hsame
  | completed hrest =>
    have hsame := h.unified (v, w) List.mem_cons_self
    refine .completed ⟨hrest.alike, h.left.trans hrest.left, h.right.trans hrest.right,
      List.forall_mem_cons.mpr ⟨?_, hrest.unified⟩⟩
    rw [← hrest.left.factors, Function.comp_apply, Function.comp_apply, hsame]

/-- Runs for swapped pairs go hand in hand. -/
theorem UnifiesAll.mirrored {result : Except UnifyError Unit × SortArena}
    (h : a.UnifiesAll pairs result) :
    ∀ {b S pairs' result'}, Alike a b S → Crossed a S pairs pairs' →
      b.UnifiesAll pairs' result' → Mirrored a b S pairs result result' := by
  induction h with
  | nil =>
    intro b S pairs' result' halike hcrossed hrun
    obtain rfl := hcrossed.eq_nil
    obtain rfl := unifiesAll_nil.mp hrun
    exact .completed ⟨halike, .refl halike.left, .refl halike.right, nofun⟩
  | fails hjoins =>
    intro b S pairs' result' halike hcrossed hrun
    obtain ⟨v', w', rest, rfl, hv, hw, hv', hw', _⟩ := hcrossed.exists_cons
    have hanswered {joined} (hjoins' : b.Joins w' v' joined) :=
      halike.joins hv hw hv' hw' hjoins hjoins'
    cases hrun with
    | fails hjoins' =>
      cases hanswered hjoins' with
      | failed hsame => exact .failed hsame
    | failsWithin hjoins' _ => cases hanswered hjoins'
    | next hjoins' _ _ => cases hanswered hjoins'
  | failsWithin hjoins _ ih =>
    intro b S pairs' result' halike hcrossed hrun
    obtain ⟨v', w', rest, rfl, hv, hw, hv', hw', _⟩ := hcrossed.exists_cons
    have hanswered {joined} (hjoins' : b.Joins w' v' joined) :=
      halike.joins hv hw hv' hw' hjoins hjoins'
    cases hrun with
    | fails hjoins' => cases hanswered hjoins'
    | failsWithin hjoins' hwithin =>
      cases hanswered hjoins' with
      | goesOn halike' hcrossed' _ =>
        cases ih halike' hcrossed' hwithin with
        | failed hsame => exact .failed hsame
    | next hjoins' hwithin _ =>
      cases hanswered hjoins' with
      | goesOn halike' hcrossed' _ => cases ih halike' hcrossed' hwithin
  | next hjoins _ _ ih ihrest =>
    intro b S pairs' result' halike hcrossed hrun
    obtain ⟨v', w', rest, rfl, hv, hw, hv', hw', hcrossed⟩ := hcrossed.exists_cons
    have hanswered {joined} (hjoins' : b.Joins w' v' joined) :=
      halike.joins hv hw hv' hw' hjoins hjoins'
    cases hrun with
    | fails hjoins' => cases hanswered hjoins'
    | failsWithin hjoins' hwithin =>
      cases hanswered hjoins' with
      | goesOn halike' hcrossed' _ => cases ih halike' hcrossed' hwithin
    | next hjoins' hwithin hrest =>
      cases hanswered hjoins' with
      | goesOn halike' hcrossed' hgoesOn =>
        cases ih halike' hcrossed' hwithin with
        | completed hwithin =>
          have hcompleted := hgoesOn _ _ hwithin
          exact hcompleted.cons
            (ihrest hcompleted.alike (hcrossed.of_confined hcompleted.left) hrest)

/-! ## Both orders -/

/-- To unify two variables in either order is to succeed, or to fail with the same variant of an
error.  If it succeeds, then all variables have the same sorts in both arenas, except that unknown
sorts may be named after other variables. -/
theorem unify_symm (ha : a.Reachable) (hv : v < a.cells.size) (hw : w < a.cells.size) :
    ((a.unify v w).1 = .ok () ∧ (a.unify w v).1 = .ok () ∧
        ∃ ρ, Set.BijOn ρ (a.unify v w).2.unknowns (a.unify w v).2.unknowns ∧
          ∀ x < a.cells.size, (a.unify w v).2.decode x = ((a.unify v w).2.decode x).rename ρ) ∨
      ∃ e e', (a.unify v w).1 = .error e ∧ (a.unify w v).1 = .error e' ∧ e.SameVariant e' := by
  have h := ha.wellFormed
  have hcrossed : Crossed a {x | x < a.cells.size} [(v, w)] [(w, v)] :=
    ⟨List.forall_mem_singleton.mpr ⟨hv, hw⟩, rfl⟩
  have hmirrored := UnifiesAll.mirrored ((h.unifies_iff hv hw).mpr rfl) (.refl h.region) hcrossed
    ((h.unifies_iff hw hv).mpr rfl)
  generalize a.unify v w = result at hmirrored ⊢
  generalize a.unify w v = result' at hmirrored ⊢
  cases hmirrored with
  | @failed b c e e' hsame => exact Or.inr ⟨e, e', rfl, rfl, hsame⟩
  | @completed b c hcompleted =>
    obtain ⟨halike, hleft, hright, _⟩ := hcompleted
    have hsize : c.cells.size = b.cells.size := hright.size.trans hleft.size.symm
    have hall : ∀ x, x ∈ {x | x < a.cells.size} ↔ x < b.cells.size := fun x => by
      rw [hleft.size, Set.mem_ofPred_eq]
    refine Or.inl ⟨rfl, rfl, c.root, halike.bijOn_unknowns hall hsize, fun x hx => ?_⟩
    rw [decode, decode, hsize]
    exact halike.read_eq hx _

/-- Two functions of one argument each, the sorts of which are unknown. -/
def twoUnaryFunctions : SortArena :=
  ⟨#[.arrow [], .unknown, .unknown, .arrow [1], .arrow [2]], defaultLimit⟩

/-- If the two functions are unified, then their argument is named after that of either one.  A
function cannot be unified with its own argument. -/
theorem unify_symm_twoUnaryFunctions :
    twoUnaryFunctions.Reachable ∧
      (∃ b c ρ, twoUnaryFunctions.unify 3 4 = (.ok (), b) ∧
        twoUnaryFunctions.unify 4 3 = (.ok (), c) ∧ b.decode 3 = .arrow [.var 2] ∧
        c.decode 3 = .arrow [.var 1] ∧ Set.BijOn ρ b.unknowns c.unknowns ∧
        ∀ x < 5, c.decode x = (b.decode x).rename ρ) ∧
      (twoUnaryFunctions.unify 1 3).1 = .error (.occurs 1 3) ∧
      (twoUnaryFunctions.unify 3 1).1 = .error (.occurs 3 1) ∧
      UnifyError.SameVariant (.occurs 1 3) (.occurs 3 1) := by
  have hreachable : twoUnaryFunctions.Reachable := by
    have hfresh : Reachable ⟨#[.arrow [], .unknown, .unknown], defaultLimit⟩ :=
      .fresh (.fresh (.withLimit defaultLimit) rfl) rfl
    have hfirst : Reachable ⟨#[.arrow [], .unknown, .unknown, .arrow [1]], defaultLimit⟩ :=
      .arrow hfresh (by decide : ∀ w ∈ [1], w < 3) rfl
    exact .arrow hfirst (by decide : ∀ w ∈ [2], w < 4) rfl
  have hleft : twoUnaryFunctions.unify 3 4 =
      (.ok (), ⟨#[.arrow [], .link 2, .unknown, .link 4, .arrow [2]], defaultLimit⟩) := by
    decide +kernel
  have hright : twoUnaryFunctions.unify 4 3 =
      (.ok (), ⟨#[.arrow [], .unknown, .link 1, .arrow [1], .link 3], defaultLimit⟩) := by
    decide +kernel
  have hfails : (twoUnaryFunctions.unify 1 3).1 = .error (.occurs 1 3) := by decide +kernel
  have hfails' : (twoUnaryFunctions.unify 3 1).1 = .error (.occurs 3 1) := by decide +kernel
  refine ⟨hreachable, ?_, hfails, hfails', ?_⟩
  · rcases unify_symm hreachable (v := 3) (w := 4) (by decide) (by decide) with
      ⟨_, _, ρ, hbij, hdecode⟩ | ⟨e, _, herror, _⟩
    · rw [hleft, hright] at hbij hdecode
      exact ⟨_, _, ρ, hleft, hright, by decide +kernel, by decide +kernel, hbij, hdecode⟩
    · rw [hleft] at herror
      cases herror
  · rcases unify_symm hreachable (v := 1) (w := 3) (by decide) (by decide) with
      ⟨hok, _⟩ | ⟨e, e', herror, herror', hsame⟩
    · cases hfails.symm.trans hok
    · cases hfails.symm.trans herror
      cases hfails'.symm.trans herror'
      exact hsame

end SortArena
end ParserGen
