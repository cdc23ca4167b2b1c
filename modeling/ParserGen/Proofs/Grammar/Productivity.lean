import ParserGen.Grammar.Productivity
import ParserGen.Proofs.Grammar.RightContexts

/-!
# Productive nonterminals

The search for productive nonterminals sweeps over the rules until a sweep changes nothing.  Such a
sweep has looked at every rule with all that is known, so there is no nonterminal left that derives
a terminal string: in a derivation divided by parts, the right-hand side of a rule comes before the
rule.

Main results:

- Theorem `Grammar.converges_productive`: the sweeps come to an end.
- Theorem `Grammar.mem_productive_iff`: what they find are the nonterminals that derive a terminal
  string.
- Theorem `Grammar.mem_unproductive_iff`: the nonterminals that are left derive none.
- Theorem `Grammar.productive_of_unproductive_eq_nil`: if none is left, every one is productive.
-/

namespace ParserGen
namespace Grammar

variable {g : Grammar} {known : IdSet} {rules : List Rule} {n : Nat}

/-! ## One sweep -/

theorem fst_productiveSweep (g : Grammar) (known : IdSet) :
    (g.productiveSweep known).1 = g.ruleList.foldl learn known :=
  fst_roundOver ..

theorem derivesFrom_iff {x : List Symbol} :
    derivesFrom known x = true ↔ ∀ n, .nonterminal n ∈ x → n ∈ known := by
  rw [derivesFrom, List.all_eq_true]
  constructor
  · intro h n hn
    exact h _ hn
  · intro h symbol hmem
    cases symbol with
    | terminal t => rfl
    | nonterminal n => exact h n hmem

/-- A rule need not be looked at if its left-hand side is known. -/
theorem mem_learn {r : Rule} :
    n ∈ learn known r ↔ n ∈ known ∨ derivesFrom known r.right = true ∧ n = r.left := by
  have hcontains : known.contains r.left = true ↔ r.left ∈ known := Iff.rfl
  unfold learn learns
  split <;> grind [IdSet.mem_insert]

/-- A rule tells something new exactly if more is known once it has been looked at. -/
theorem learns_iff {r : Rule} : learns known r = true ↔ learn known r ≠ known := by
  unfold learn
  split <;> rename_i hlearns
  · refine iff_of_true hlearns fun hsame => ?_
    have hleft : r.left ∈ known := hsame ▸ IdSet.mem_insert.mpr (Or.inr rfl)
    rw [learns, IdSet.mem_iff_contains.mp hleft] at hlearns
    cases hlearns
  · exact iff_of_false hlearns (by simp)

/-- The flag of a sweep is set exactly if the sweep makes more nonterminals known. -/
theorem reportsChanges_productiveSweep (g : Grammar) : ReportsChanges g.productiveSweep :=
  reportsChanges_roundOver (fun known more : IdSet => ∀ n ∈ known, n ∈ more)
    (fun _ _ hn => hn) (fun h h' n hn => h' n (h n hn))
    (fun h h' => IdSet.ext fun n => ⟨h n, h' n⟩) (fun _ _ _ hn => mem_learn.mpr (Or.inl hn))
    (fun _ _ => learns_iff) g.ruleList

/-- Nothing that is known gets lost. -/
theorem mem_foldl_learn_of_mem (hn : n ∈ known) : n ∈ rules.foldl learn known := by
  induction rules generalizing known with
  | nil => exact hn
  | cons r rules ih => exact ih (mem_learn.mpr (Or.inl hn))

/-- What becomes known is the left-hand side of a rule. -/
theorem mem_or_left_of_mem_foldl_learn (hn : n ∈ rules.foldl learn known) :
    n ∈ known ∨ ∃ r ∈ rules, r.left = n := by
  induction rules generalizing known with
  | nil => exact Or.inl hn
  | cons r rules ih =>
    rcases ih hn with hlearn | ⟨r', hr', hleft⟩
    · rcases mem_learn.mp hlearn with hold | ⟨_, rfl⟩
      · exact Or.inl hold
      · exact Or.inr ⟨r, List.mem_cons_self, rfl⟩
    · exact Or.inr ⟨r', List.mem_cons_of_mem _ hr', hleft⟩

/-- A rule whose right-hand side is known before a sweep has a known left-hand side after it. -/
theorem left_mem_foldl_learn {r : Rule} (hr : r ∈ rules)
    (hright : derivesFrom known r.right = true) : r.left ∈ rules.foldl learn known := by
  induction rules generalizing known with
  | nil => cases hr
  | cons r' rules ih =>
    rw [List.foldl_cons]
    rcases List.mem_cons.mp hr with rfl | hr
    · exact mem_foldl_learn_of_mem (mem_learn.mpr (Or.inr ⟨hright, rfl⟩))
    · refine ih hr ?_
      rw [derivesFrom_iff] at hright ⊢
      exact fun n hn => mem_learn.mpr (Or.inl (hright n hn))

/-! ## The last sweep -/

/-- The nonterminals that are the left-hand side of a rule. -/
def leftSides (g : Grammar) : Finset Nat := (g.ruleList.map (·.left)).toFinset

theorem card_leftSides_le (g : Grammar) : g.leftSides.card ≤ g.rules.size := by
  refine (List.toFinset_card_le _).trans_eq ?_
  rw [List.length_map, length_ruleList]

/-- A sweep that changes something makes another left-hand side known. -/
theorem filter_leftSides_ssubset (hne : (g.productiveSweep known).1 ≠ known) :
    g.leftSides.filter (· ∈ known) ⊂ g.leftSides.filter (· ∈ (g.productiveSweep known).1) := by
  rw [fst_productiveSweep] at hne ⊢
  rw [Finset.ssubset_iff_subset_ne]
  constructor
  · exact Finset.monotone_filter_right _ fun n _ hn => mem_foldl_learn_of_mem hn
  · intro heq
    refine hne (IdSet.ext fun n => ⟨fun hn => ?_, mem_foldl_learn_of_mem⟩)
    rcases mem_or_left_of_mem_foldl_learn hn with hold | ⟨r, hr, rfl⟩
    · exact hold
    · have hleft : r.left ∈ g.leftSides := List.mem_toFinset.mpr (List.mem_map_of_mem hr)
      have hmem := Finset.mem_filter.mpr ⟨hleft, hn⟩
      rw [← heq] at hmem
      exact (Finset.mem_filter.mp hmem).2

/-- A sweep over the rules adds nothing to what has been found. -/
theorem productiveSweep_productive (g : Grammar) :
    g.productiveSweep g.productive = (g.productive, false) :=
  round_iterateWhileChanged_of_facts (motive := fun _ => True) g.reportsChanges_productiveSweep
    (fun known : IdSet => g.leftSides.filter (· ∈ known)) g.leftSides (fun _ _ => trivial)
    (fun _ _ hne => filter_leftSides_ssubset hne) (fun _ => Finset.filter_subset _ _)
    (Nat.lt_succ_of_le g.card_leftSides_le) trivial

/-- The sweeps come to an end, with what is found. -/
theorem converges_productive (g : Grammar) : Converges g.productiveSweep ∅ g.productive :=
  converges_iterateWhileChanged g.reportsChanges_productiveSweep (productiveSweep_productive g)

/-! ## What is found, and what is left -/

/-- Every nonterminal that is known derives a terminal string. -/
def ProductiveOnly (g : Grammar) (known : IdSet) : Prop :=
  ∀ n ∈ known, ∃ w, g.Yields [.nonterminal n] w

theorem ProductiveOnly.learn (h : g.ProductiveOnly known) {r : Rule} (hr : r ∈ g.ruleList) :
    g.ProductiveOnly (Grammar.learn known r) := by
  intro n hn
  rcases mem_learn.mp hn with hold | ⟨hright, rfl⟩
  · exact h n hold
  · have hsymbols := derivesFrom_iff.mp hright
    obtain ⟨w, hw⟩ := exists_yields_of_forall fun n hn => h n (hsymbols n hn)
    exact ⟨w ++ [], .nonterminal hr hw .nil⟩

theorem ProductiveOnly.productiveSweep (h : g.ProductiveOnly known) :
    g.ProductiveOnly (g.productiveSweep known).1 := by
  rw [fst_productiveSweep]
  exact List.foldlRecOn (motive := g.ProductiveOnly) g.ruleList Grammar.learn h
    fun _ hknown _ hr => hknown.learn hr

theorem productiveOnly_productive (g : Grammar) : g.ProductiveOnly g.productive :=
  iterateWhileChanged_induction (fun _ hknown => hknown.productiveSweep) _
    fun n hn => absurd hn (IdSet.not_mem_empty n)

/-- The nonterminals of a string that yields something are found. -/
theorem Yields.derivesFrom_productive {x : List Symbol} {w : List Nat} (h : g.Yields x w) :
    derivesFrom g.productive x = true := by
  induction h with
  | nil => rfl
  | terminal _ ih => exact ih
  | @nonterminal r x u v hr _ _ ihright ih =>
    have hleft := left_mem_foldl_learn hr ihright
    rw [← fst_productiveSweep, productiveSweep_productive] at hleft
    rw [derivesFrom_iff] at ih ⊢
    intro n hn
    rcases List.mem_cons.mp hn with heq | hn
    · exact Symbol.nonterminal.inj heq ▸ hleft
    · exact ih n hn

/-- The nonterminals that are found are those that derive a terminal string. -/
theorem mem_productive_iff :
    n ∈ g.productive ↔ ∃ w, g.Derives [.nonterminal n] (sentence w) := by
  constructor
  · intro hn
    obtain ⟨w, hw⟩ := g.productiveOnly_productive n hn
    exact ⟨w, hw.derives⟩
  · rintro ⟨w, hw⟩
    have hfound := (yields_of_derives hw).derivesFrom_productive
    exact derivesFrom_iff.mp hfound n List.mem_cons_self

/-- The nonterminals that are left derive no terminal string. -/
theorem mem_unproductive_iff :
    n ∈ g.unproductive ↔
      n ∈ g.nonterminals ∧ ¬ ∃ w, g.Derives [.nonterminal n] (sentence w) := by
  rw [← mem_productive_iff, IdSet.mem_iff_contains, unproductive, List.mem_filter,
    IndexMap.mem_keys, Bool.not_eq_true']
  simp

/-- If no nonterminal is left, every one is productive. -/
theorem productive_of_unproductive_eq_nil (h : g.unproductive = []) : g.Productive := by
  intro n hn
  by_contra hnone
  have hleft := mem_unproductive_iff.mpr ⟨hn, hnone⟩
  rw [h] at hleft
  cases hleft

end Grammar
end ParserGen
