import Mathlib.Data.Set.Card
import ParserGen.Proofs.Grammar.RightContexts

/-!
# Leftmost derivations

A leftmost derivation is known by its rules.  What can be derived at all has one, and may have many:
those from a form with a nonterminal are divided according to the rule that is used first.

Main results:

- Theorem `Grammar.derives_iff_nonempty_derivations`: what is derived has a leftmost derivation.
- Theorem `Grammar.Augmented.encard_derivations`: the leftmost derivations from a form are as many
  as those from the forms that its leftmost nonterminal is expanded to.
- Theorem `Grammar.LeftmostDerives.length_le`: without empty right-hand sides no form gets shorter.
-/

namespace ParserGen
namespace Grammar

variable {g : Grammar} {w : List Nat}

/-! ## The leftmost nonterminal -/

theorem sentence_append (u v : List Nat) : sentence (u ++ v) = sentence u ++ sentence v :=
  List.map_append

theorem sentence_inj {u v : List Nat} : sentence u = sentence v ↔ u = v :=
  List.map_inj_right fun _ _ h => Symbol.terminal.inj h

/-- A form is a terminal string, or it has a leftmost nonterminal. -/
theorem sentence_or_leftmost (form : List Symbol) :
    (∃ v, form = sentence v) ∨
      ∃ before n after, form = sentence before ++ .nonterminal n :: after := by
  induction form with
  | nil => exact Or.inl ⟨[], rfl⟩
  | cons x form ih =>
    cases x with
    | nonterminal n => exact Or.inr ⟨[], n, form, rfl⟩
    | terminal t =>
      rcases ih with ⟨v, rfl⟩ | ⟨before, n, after, rfl⟩
      · exact Or.inl ⟨t :: v, rfl⟩
      · exact Or.inr ⟨t :: before, n, after, rfl⟩

theorem leftmost_ne_sentence {before v : List Nat} {n : Nat} {after : List Symbol} :
    sentence before ++ .nonterminal n :: after ≠ sentence v := by
  intro h
  have hmem : Symbol.nonterminal n ∈ sentence v := h ▸ by simp
  simp [sentence] at hmem

/-- There is one leftmost nonterminal only. -/
theorem leftmost_inj {before before' : List Nat} {n n' : Nat} {after after' : List Symbol}
    (h : sentence before ++ .nonterminal n :: after =
      sentence before' ++ .nonterminal n' :: after') :
    before = before' ∧ n = n' ∧ after = after' := by
  induction before generalizing before' with
  | nil =>
    cases before' with
    | nil =>
      cases h
      exact ⟨rfl, rfl, rfl⟩
    | cons t before' => cases h
  | cons t before ih =>
    cases before' with
    | nil => cases h
    | cons t' before' =>
      obtain ⟨ht, hrest⟩ := List.cons.inj h
      cases ht
      obtain ⟨rfl, rfl, rfl⟩ := ih hrest
      exact ⟨rfl, rfl, rfl⟩

/-! ## Derivations -/

/-- Replace the leftmost nonterminal by one rule after the other. -/
inductive LeftmostDerives (g : Grammar) : List Symbol → List Nat → List Symbol → Prop
  | refl (x : List Symbol) : LeftmostDerives g x [] x
  | step {r : Rule} {after y : List Symbol} {before rules : List Nat} : r ∈ g.ruleList →
      LeftmostDerives g (sentence before ++ r.right ++ after) rules y →
      LeftmostDerives g (sentence before ++ .nonterminal r.left :: after) (r.id :: rules) y

namespace LeftmostDerives

variable {x y z : List Symbol} {rules rules' : List Nat}

theorem trans (h : g.LeftmostDerives x rules y) (h' : g.LeftmostDerives y rules' z) :
    g.LeftmostDerives x (rules ++ rules') z := by
  induction h with
  | refl x => exact h'
  | step hr _ ih => exact .step hr (ih h')

theorem derives (h : g.LeftmostDerives x rules y) : g.Derives x y := by
  induction h with
  | refl x => exact Relation.ReflTransGen.refl
  | step hr _ ih => exact Relation.ReflTransGen.head ⟨_, hr, _, _, rfl, rfl⟩ ih

/-- Without empty right-hand sides no form gets shorter. -/
theorem length_le (hright : ∀ r ∈ g.ruleList, r.right ≠ []) (h : g.LeftmostDerives x rules y) :
    x.length ≤ y.length := by
  induction h with
  | refl x => exact Nat.le_refl _
  | @step r after y before rules hr _ ih =>
    have hpos := List.length_pos_of_ne_nil (hright r hr)
    simp only [List.length_append, List.length_cons] at ih ⊢
    omega

end LeftmostDerives

/-- What a string yields is derived leftmost, whatever terminals are before and whatever symbols are
after it. -/
theorem Yields.leftmostDerives {x : List Symbol} {v : List Nat} (h : g.Yields x v)
    (before : List Nat) (after : List Symbol) :
    ∃ rules, g.LeftmostDerives (sentence before ++ x ++ after) rules
      (sentence (before ++ v) ++ after) := by
  induction h generalizing before after with
  | nil =>
    rw [List.append_nil, List.append_nil]
    exact ⟨[], .refl _⟩
  | @terminal t x v _ ih =>
    obtain ⟨rules, hderives⟩ := ih (before ++ [t]) after
    simp only [sentence_append, sentence_cons, sentence_nil, List.append_assoc,
      List.singleton_append] at hderives ⊢
    exact ⟨rules, hderives⟩
  | @nonterminal r x u v hr _ _ ihright ih =>
    -- The symbols before the others come first.
    obtain ⟨rules, hright⟩ := ihright before (x ++ after)
    obtain ⟨rules', hrest⟩ := ih (before ++ u) after
    rw [List.append_assoc (sentence _), List.append_assoc before] at hrest
    rw [List.append_assoc (sentence before), List.cons_append]
    exact ⟨_, .step hr (hright.trans hrest)⟩

/-- The leftmost derivations of a terminal string from a form, each given by its rules. -/
def derivations (g : Grammar) (form : List Symbol) (w : List Nat) : Set (List Nat) :=
  {rules | g.LeftmostDerives form rules (sentence w)}

/-- What is derived has a leftmost derivation. -/
theorem derives_iff_nonempty_derivations {form : List Symbol} :
    g.Derives form (sentence w) ↔ (g.derivations form w).Nonempty := by
  constructor
  · intro h
    obtain ⟨rules, hderives⟩ := (yields_of_derives h).leftmostDerives [] []
    exact ⟨rules, by simpa [derivations] using hderives⟩
  · rintro ⟨rules, hderives⟩
    exact hderives.derives

/-! ## How many there are -/

/-- Nothing can be replaced in a terminal string. -/
theorem LeftmostDerives.of_sentence {v rules : List Nat} {y : List Symbol}
    (h : g.LeftmostDerives (sentence v) rules y) : rules = [] ∧ y = sentence v := by
  generalize hx : sentence v = x at h
  cases h with
  | refl x => exact ⟨rfl, rfl⟩
  | step _ _ => exact absurd hx.symm leftmost_ne_sentence

/-- From a terminal string there is one derivation of itself, and none of other strings. -/
theorem encard_derivations_sentence (v : List Nat) :
    (g.derivations (sentence v) w).encard = ([v].count w : Nat) := by
  by_cases hvw : v = w
  · subst hvw
    have honly : g.derivations (sentence v) v = {[]} := by
      ext rules
      exact ⟨fun h => h.of_sentence.1, fun h => h ▸ .refl _⟩
    rw [honly, Set.encard_singleton, List.count_singleton_self]
    rfl
  · have hnone : g.derivations (sentence v) w = ∅ := by
      ext rules
      exact ⟨fun h => absurd (sentence_inj.mp h.of_sentence.2).symm hvw, fun h => h.elim⟩
    rw [hnone, Set.encard_empty, List.count_eq_zero_of_not_mem (by simpa using Ne.symm hvw)]
    rfl

/-- The first rule of a leftmost derivation expands the leftmost nonterminal. -/
theorem mem_derivations_leftmost {before rules : List Nat} {n : Nat} {after : List Symbol} :
    rules ∈ g.derivations (sentence before ++ .nonterminal n :: after) w ↔
      ∃ r ∈ g.rulesOf n, ∃ rest ∈ g.derivations (sentence before ++ r.right ++ after) w,
        rules = r.id :: rest := by
  constructor
  · intro h
    generalize hx : sentence before ++ .nonterminal n :: after = x at h
    generalize hy : sentence w = y at h
    cases h with
    | refl _ => exact absurd hx leftmost_ne_sentence
    | @step r _ _ _ rest hr hrest =>
      obtain ⟨rfl, rfl, rfl⟩ := leftmost_inj hx
      subst hy
      exact ⟨r, List.mem_filter.mpr ⟨hr, beq_self_eq_true _⟩, rest, hrest, rfl⟩
  · rintro ⟨r, hr, rest, hrest, rfl⟩
    obtain ⟨hmem, hleft⟩ := List.mem_filter.mp hr
    obtain rfl := eq_of_beq hleft
    exact LeftmostDerives.step hmem hrest

theorem Augmented.nodup_ids (h : g.Augmented) : (g.ruleList.map (·.id)).Nodup := by
  have hids : ∀ row ∈ g.rules.toList, row.2.id = row.1 := fun row hrow =>
    h.id_eq (IndexMap.mem_toList_iff.mp hrow)
  have hkeys : g.ruleList.map (·.id) = g.rules.keys := by
    rw [ruleList, IndexMap.values, IndexMap.keys, List.map_map]
    exact List.map_congr_left hids
  exact hkeys ▸ g.rules.nodup_keys

/-- Lists that begin with different numbers are as many as their rests. -/
theorem encard_heads {rules : List Rule} (hnodup : (rules.map (·.id)).Nodup)
    (rests : Rule → Set (List Nat)) :
    {l | ∃ r ∈ rules, ∃ rest ∈ rests r, l = r.id :: rest}.encard =
      (rules.map fun r => (rests r).encard).sum := by
  induction rules with
  | nil => simp
  | cons r rules ih =>
    obtain ⟨hnew, hnodup⟩ := List.nodup_cons.mp hnodup
    have hsplit : {l | ∃ r' ∈ r :: rules, ∃ rest ∈ rests r', l = r'.id :: rest} =
        (List.cons r.id '' rests r) ∪ {l | ∃ r' ∈ rules, ∃ rest ∈ rests r', l = r'.id :: rest} := by
      ext l
      simp [eq_comm]
    have hdisjoint : Disjoint (List.cons r.id '' rests r)
        {l | ∃ r' ∈ rules, ∃ rest ∈ rests r', l = r'.id :: rest} := by
      refine Set.disjoint_left.mpr ?_
      rintro _ ⟨rest, _, rfl⟩ ⟨r', hr', rest', _, heq⟩
      exact hnew (List.mem_map.mpr ⟨r', hr', (List.cons.inj heq).1.symm⟩)
    rw [hsplit, Set.encard_union_eq hdisjoint, (List.cons_injective).encard_image, ih hnodup,
      List.map_cons, List.sum_cons]

/-- The leftmost derivations from a form are as many as those from the forms that its leftmost
nonterminal is expanded to. -/
theorem Augmented.encard_derivations (h : g.Augmented) (before : List Nat) (n : Nat)
    (after : List Symbol) :
    (g.derivations (sentence before ++ .nonterminal n :: after) w).encard =
      ((g.rulesOf n).map fun r =>
        (g.derivations (sentence before ++ r.right ++ after) w).encard).sum := by
  have hnodup : ((g.rulesOf n).map (·.id)).Nodup :=
    h.nodup_ids.sublist (List.filter_sublist.map _)
  rw [← encard_heads hnodup]
  exact congrArg Set.encard (Set.ext fun rules => mem_derivations_leftmost)

end Grammar
end ParserGen
