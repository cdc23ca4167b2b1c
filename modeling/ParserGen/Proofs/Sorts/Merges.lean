import ParserGen.Proofs.Sorts.Unification

/-!
# Merging the sorts of two variables

The variables with one representative form a class, which has the operands of its representative.
A step of unification compresses paths and may link one representative to another.  What comes of
two variables, and what becomes of the classes, can be told from the classes and their operands
alone: two classes become one, and this one has the operands that either of the two had.

Main results:

- Theorem `SortArena.WellFormed.root_link`: the representatives after a link.
- Theorem `SortArena.WellFormed.joined_unifyOnce`: what a step of unification does to the classes.
-/

namespace ParserGen
namespace SortArena

variable {a b c : SortArena} {v v' w w' x y r s t : Nat}

/-! ## Classes -/

theorem WellFormed.root_root (h : a.WellFormed) (x : Nat) : a.root (a.root x) = a.root x :=
  h.root_eq_iff.mpr (.refl (h.root_represents x).last)

theorem WellFormed.domain?_root (h : a.WellFormed) (x : Nat) :
    a.domain? (a.root x) = a.domain? x := by
  rw [domain?, domain?, h.root_root]

theorem WellFormed.root_lt (h : a.WellFormed) (hx : x < a.cells.size) : a.root x < a.cells.size :=
  h.lt_of_represents hx (h.root_represents x)

/-- The parts of a class are the classes of its operands. -/
theorem WellFormed.child_iff (h : a.WellFormed) :
    a.Child (a.root x) s ↔
      ∃ operands, a.domain? x = some operands ∧ ∃ y ∈ operands, a.root y = s := by
  constructor
  · rintro ⟨operands, y, hcell, hy, hs⟩
    exact ⟨operands, operands?_of_arrow hcell, y, hy, h.root_eq_iff.mpr hs⟩
  · rintro ⟨operands, hoperands, y, hy, hs⟩
    exact ⟨operands, y, arrow_of_operands? hoperands, hy, h.root_eq_iff.mp hs⟩

theorem Compressed.root_eq (h : Compressed a b) (ha : a.WellFormed) (x : Nat) :
    b.root x = a.root x :=
  (h.wellFormed ha).root_eq_iff.mpr (h.represents (ha.root_represents x))

theorem Compressed.domain?_eq (h : Compressed a b) (ha : a.WellFormed) (x : Nat) :
    b.domain? x = a.domain? x := by
  rw [domain?, domain?, h.root_eq ha, h.operands?_eq]

/-! ## Links -/

theorem operands?_link (hne : x ≠ r) (s : Nat) : (a.link r s).operands? x = a.operands? x := by
  unfold operands?
  rw [getElem?_link, if_neg fun h => hne h.1]

/-- The variables that `r` represented are represented by `s` once `r` is linked to it. -/
theorem WellFormed.root_link (h : a.WellFormed) (hroots : Roots a r s)
    (hpart : ¬ Relation.TransGen a.Child s r) (x : Nat) :
    (a.link r s).root x = if a.root x = r then s else a.root x := by
  have hlinked {y z : Nat} := linked_link_iff (w := s) (x := y) (y := z) hroots.left_lt
  have hold {y : Nat} (hy : y ≠ r) (hlast : ∀ z, ¬ a.Linked y z) :
      ∀ z, ¬ (a.link r s).Linked y z := by
    intro z hz
    rw [hlinked, if_neg hy] at hz
    exact hlast z hz
  -- No link leads on from `r`, so the way to the old representative is as it was.
  have hpath : Relation.ReflTransGen (a.link r s).Linked x (a.root x) := by
    refine Relation.ReflTransGen.mono (fun y z hyz => ?_) _ _ (h.root_represents x).path
    rw [hlinked, if_neg fun hy : y = r => hroots.left z (hy ▸ hyz)]
    exact hyz
  refine (h.link hroots.right hroots.right_lt hroots.ne hroots.left hpart).root_eq_iff.mpr ?_
  split
  · rename_i hx
    exact ⟨hpath.tail (hlinked.mpr (by rw [if_pos hx])), hold hroots.ne.symm hroots.right⟩
  · rename_i hx
    exact ⟨hpath, hold hx (h.root_represents x).last⟩

/-! ## One step -/

/-- `c` is `a` after the classes of `v` and `w` have become one, which `t` represents.  Nothing is
forgotten: the class has the operands of one of the two if there are any. -/
structure Merges (a : SortArena) (v w t : Nat) (c : SortArena) : Prop where
  wellFormed : c.WellFormed
  size : c.cells.size = a.cells.size
  survivor : t = a.root v ∨ t = a.root w
  root : ∀ x, c.root x = if a.root x = a.root v ∨ a.root x = a.root w then t else a.root x
  domain : ∀ x, c.domain? x = a.domain? (c.root x)
  known : a.domain? t = none → a.domain? v = none ∧ a.domain? w = none

theorem Merges.symm (h : a.Merges v w t c) : a.Merges w v t c where
  wellFormed := h.wellFormed
  size := h.size
  survivor := h.survivor.symm
  root x := (h.root x).trans (if_congr or_comm rfl rfl)
  domain := h.domain
  known hnone := (h.known hnone).symm

theorem Merges.congr (h : a.Merges v' w' t c) (hv : a.root v' = a.root v)
    (hw : a.root w' = a.root w) : a.Merges v w t c where
  wellFormed := h.wellFormed
  size := h.size
  survivor := hv ▸ hw ▸ h.survivor
  root x := by rw [h.root, hv, hw]
  domain := h.domain
  known hnone := by
    rw [domain?, ← hv, domain?, ← hw]
    exact h.known hnone

theorem Merges.root_eq_survivor (h : a.Merges v w t c)
    (hx : a.root x = a.root v ∨ a.root x = a.root w) : c.root x = t := by
  rw [h.root, if_pos hx]

theorem Merges.factors (h : a.Merges v w t c) (ha : a.WellFormed) : c.root ∘ a.root = c.root :=
  funext fun x => by rw [Function.comp_apply, h.root, h.root, ha.root_root]

/-- No other classes are merged. -/
theorem Merges.root_eq_iff (h : a.Merges v w t c) : c.root x = c.root y ↔ a.root x = a.root y ∨
    (a.root x = a.root v ∨ a.root x = a.root w) ∧ (a.root y = a.root v ∨ a.root y = a.root w) := by
  have hmerged {z : Nat} (hz : t = a.root z) : a.root z = a.root v ∨ a.root z = a.root w :=
    hz ▸ h.survivor
  rw [h.root, h.root]
  by_cases hx : a.root x = a.root v ∨ a.root x = a.root w
  · by_cases hy : a.root y = a.root v ∨ a.root y = a.root w
    · rw [if_pos hx, if_pos hy]
      exact iff_of_true rfl (Or.inr ⟨hx, hy⟩)
    · rw [if_pos hx, if_neg hy]
      refine iff_of_false (fun heq => hy (hmerged heq)) ?_
      rintro (heq | ⟨_, hy'⟩)
      · exact hy (heq ▸ hx)
      · exact hy hy'
  · by_cases hy : a.root y = a.root v ∨ a.root y = a.root w
    · rw [if_neg hx, if_pos hy]
      refine iff_of_false (fun heq => hx (hmerged heq.symm)) ?_
      rintro (heq | ⟨hx', _⟩)
      · exact hx (heq ▸ hy)
      · exact hx hx'
    · rw [if_neg hx, if_neg hy]
      exact ⟨Or.inl, fun heq => heq.resolve_right fun hboth => hx hboth.1⟩

/-- Whatever operands the merged class has kept, they are those of either variable to a function
that takes both to the same. -/
theorem Merges.map_domain (h : a.Merges v w t c) (ha : a.WellFormed) {f : Nat → Nat}
    (hequal : ∀ d e, (a.domain? v).map (List.map f) = some d →
      (a.domain? w).map (List.map f) = some e → d = e) :
    (a.domain? t).map (List.map f) =
      ((a.domain? v).map (List.map f)).or ((a.domain? w).map (List.map f)) := by
  have ht : a.domain? t = a.domain? v ∨ a.domain? t = a.domain? w := by
    rcases h.survivor with rfl | rfl
    · exact Or.inl (ha.domain?_root v)
    · exact Or.inr (ha.domain?_root w)
  have hknown := h.known
  cases hd : a.domain? v with
  | none =>
    rcases ht with ht | ht
    · rw [ht, (hknown (ht.trans hd)).2, hd]
      rfl
    · rw [ht]
      rfl
  | some d =>
    rcases ht with ht | ht
    · rw [ht, hd]
      rfl
    · cases he : a.domain? w with
      | none => cases hd.symm.trans (hknown (ht.trans he)).1
      | some e =>
        rw [ht, he]
        exact congrArg some (hequal _ _ (hd ▸ rfl) (he ▸ rfl)).symm

/-- To link the representative of `v` to that of `w` is to merge their classes. -/
theorem WellFormed.merges_link (h : a.WellFormed) (hb : Compressed a b) (hv : v < a.cells.size)
    (hw : w < a.cells.size) (hne : a.root v ≠ a.root w)
    (hpart : ¬ Relation.TransGen a.Child (a.root w) (a.root v))
    (hknown : a.domain? w = none → a.domain? v = none) :
    a.Merges v w (a.root w) (b.link (a.root v) (a.root w)) := by
  have hroots : Roots a (a.root v) (a.root w) :=
    ⟨(h.root_represents v).last, h.root_lt hv, (h.root_represents w).last, h.root_lt hw, hne⟩
  have hroots' := hroots.of_compressed hb
  have hb' := hb.wellFormed h
  rw [← hb.child_eq h] at hpart
  have hroot : ∀ x, (b.link (a.root v) (a.root w)).root x =
      if a.root x = a.root v ∨ a.root x = a.root w then a.root w else a.root x := by
    intro x
    rw [hb'.root_link hroots' hpart, hb.root_eq h]
    by_cases hx : a.root x = a.root w
    · simp [hx]
    · simp [hx]
  have hother : ∀ x, (b.link (a.root v) (a.root w)).root x ≠ a.root v := by
    intro x
    rw [hroot]
    split
    · exact hne.symm
    · rename_i hx
      exact fun heq => hx (Or.inl heq)
  refine ⟨hb'.link hroots'.right hroots'.right_lt hne hroots'.left hpart, ?_, Or.inr rfl, hroot,
    fun x => ?_, fun hnone => ?_⟩
  · simp [SortArena.link, hb.size]
  · have hlast : a.root ((b.link (a.root v) (a.root w)).root x) =
        (b.link (a.root v) (a.root w)).root x := by
      rw [hroot]
      split
      · exact h.root_root w
      · exact h.root_root x
    rw [domain?, operands?_link (hother x), hb.operands?_eq, domain?, hlast]
  · rw [h.domain?_root] at hnone
    exact ⟨hknown hnone, hnone⟩

/-- The operands of two variables side by side, as far as they are known. -/
def operandPairs (a : SortArena) (v w : Nat) : List (Nat × Nat) :=
  ((a.domain? v).getD []).zip ((a.domain? w).getD [])

/-- Variables that do not clash have the same operands once these are unified. -/
theorem map_domain_eq_of_unified {f : Nat → Nat} (hclash : ¬ a.Clash (a.root v) (a.root w))
    (hunified : ∀ pair ∈ a.operandPairs v w, f pair.1 = f pair.2) :
    ∀ d e, (a.domain? v).map (List.map f) = some d →
      (a.domain? w).map (List.map f) = some e → d = e := by
  intro _ _ hp hq
  obtain ⟨d, hd, rfl⟩ := Option.map_eq_some_iff.mp hp
  obtain ⟨e, he, rfl⟩ := Option.map_eq_some_iff.mp hq
  have hlength : d.length = e.length := not_not.mp fun hne => hclash ⟨d, e, hd, he, hne⟩
  refine (forall_zip_iff_map_eq hlength).mp ?_
  simpa only [operandPairs, hd, he, Option.getD_some] using hunified

open Classical in
/-- What comes of two variables, told from the classes and their operands. -/
def Joined (a : SortArena) (v w : Nat) (result : Except UnifyError (List (Nat × Nat)) × SortArena) :
    Prop :=
  if a.root v = a.root w then ∃ c, result = (.ok [], c) ∧ Compressed a c
  else if a.Clash (a.root v) (a.root w) then ∃ c, result = (.error (.arity v w), c)
  else if a.Knotted (a.root v) (a.root w) then ∃ c, result = (.error (.occurs v w), c)
  else ∃ c, result = (.ok (a.operandPairs v w), c) ∧ ∃ t, a.Merges v w t c

theorem WellFormed.joined_of_outcome (h : a.WellFormed) (hv : v < a.cells.size)
    (hw : w < a.cells.size) {result : Except UnifyError (List (Nat × Nat)) × SortArena}
    (hb : Compressed a b) (houtcome : Outcome b v w (a.root v) (a.root w) result) :
    a.Joined v w result := by
  unfold Joined
  cases houtcome with
  | same heq =>
    rw [if_pos heq]
    exact ⟨b, rfl, hb⟩
  | clash hne hclash =>
    rw [hb.clash_iff] at hclash
    rw [if_neg hne, if_pos hclash]
    exact ⟨b, rfl⟩
  | @knotted c hne hclash hknotted hc =>
    rw [hb.clash_iff] at hclash
    rw [hb.knotted_iff h] at hknotted
    rw [if_neg hne, if_neg hclash, if_pos hknotted]
    exact ⟨c, rfl⟩
  | @left c hne hd hknotted hc =>
    rw [hb.operands?_eq] at hd
    rw [hb.knotted_iff h] at hknotted
    rw [if_neg hne, if_neg (not_clash_unknown hd), if_neg hknotted]
    refine ⟨_, ?_, a.root w, h.merges_link (hb.trans hc) hv hw hne (not_or.mp hknotted).1
      fun _ => hd⟩
    simp [operandPairs, domain?, hd]
  | @right c hne he hknotted hc =>
    rw [hb.operands?_eq] at he
    rw [hb.knotted_iff h] at hknotted
    rw [if_neg hne, if_neg fun h => not_clash_unknown he h.symm, if_neg hknotted]
    refine ⟨_, ?_, a.root v, (h.merges_link (hb.trans hc) hw hv hne.symm (not_or.mp hknotted).2
      fun _ => he).symm⟩
    simp [operandPairs, domain?, he]
  | @arrows c d e hne hd he hlength hknotted hc =>
    rw [hb.operands?_eq] at hd he
    rw [hb.knotted_iff h] at hknotted
    rw [if_neg hne, if_neg (not_clash_arrows hd he hlength), if_neg hknotted]
    refine ⟨_, ?_, a.root w, h.merges_link (hb.trans hc) hv hw hne (not_or.mp hknotted).1
      fun hnone => ?_⟩
    · simp [operandPairs, domain?, hd, he]
    · cases he.symm.trans hnone

/-- What a step of unification does to the classes. -/
theorem WellFormed.joined_unifyOnce (h : a.WellFormed) (hv : v < a.cells.size)
    (hw : w < a.cells.size) : a.Joined v w (a.unifyOnce v w) := by
  obtain ⟨hr, hfirst⟩ := h.find_spec v
  obtain ⟨hs, hsecond⟩ := (hfirst.wellFormed h).find_spec w
  rw [← h.root_eq_iff] at hr
  rw [← (hfirst.wellFormed h).root_eq_iff, hfirst.root_eq h] at hs
  have houtcome := unifyRoots_outcome ((hfirst.trans hsecond).wellFormed h) (a.root v) (a.root w)
    v w
  refine h.joined_of_outcome hv hw (hfirst.trans hsecond) ?_
  rw [unifyOnce]
  simp only [← hr, ← hs]
  exact houtcome

end SortArena
end ParserGen
