import Mathlib.Data.List.Sigma
import ParserGen.Proofs.Grammar.Repetition
import ParserGen.Proofs.Template.BreadthFirst
import ParserGen.Proofs.Template.Failures
import ParserGen.Proofs.Template.Readability

/-!
# The names of the instances

An instance is named by what is written for its closed application.  Applications that can be
reached from the start symbol are made of the names of rules and tokens, and none is to no
arguments, so where these names are plain the instances have different names.  An instance does not
have two rules with the same sides either.  So an expanded grammar declares nothing twice.

Main results:

- Theorem `Template.readable_of_reachable`: what can be reached can be read back.
- Theorem `Expansion.nodup_names`: tokens and instances have different names.
- Theorem `Expansion.nodup_sides`: no two rules of an expansion have the same sides.
- Theorem `Template.expand_repeats_nothing`: no name and no rule of an expanded grammar is refused
  as repeated.
-/

namespace ParserGen

namespace Template

variable {t : Template} {σ : Sorting} {p : Parameter}

/-- The names of rules and tokens are free of the characters that are written around arguments. -/
def PlainNames (t : Template) : Prop := ∀ name ∈ t.tokens ++ t.ruleNames, Parameter.Plain name

/-- Applications to no arguments cannot be reached. -/
theorem normal_of_reachable (h : t.Reachable p) : p.Normal := by
  obtain ⟨name, _, hreach⟩ := h
  induction hreach with
  | refl => trivial
  | tail _ hmentions ih =>
    obtain ⟨elements, hunfolds, hp⟩ := hmentions
    exact hunfolds.normal ih _ hp

theorem readable_of_reachable (hnames : t.WellNamed) (hσ : t.SortedBy σ) (hplain : t.PlainNames)
    (h : t.Reachable p) : p.Readable where
  normal := normal_of_reachable h
  plain name hname :=
    hplain name (List.mem_append.mpr ((wellSorted_of_reachable hnames hσ h).known name hname))

end Template

/-! ## Instances of rules -/

namespace Expansion

variable {src : ExpansionSource} {x : Expansion} {p : Parameter} {env : Bindings}
  {owner : Nat} {inst : RuleInstance}

/-- No closed application has two instances, also if an expansion fails. -/
theorem nodup_applications (src : ExpansionSource) : (expandAll src).2.applications.Nodup := by
  obtain ⟨_, hbounded⟩ := bounded_expandAll src
  exact hbounded.distinct

/-- All instances can be reached, also if an expansion fails. -/
theorem reachable_of_mem_applications (hnames : src.template.WellNamed)
    (hp : p ∈ (expandAll src).2.applications) : src.template.Reachable p := by
  obtain ⟨inst, hinst, rfl⟩ := List.mem_map.mp hp
  exact reachable_of_mem_instances hnames (Array.mem_toList_iff.mp hinst)

/-- No instance is a token. -/
theorem head_not_mem_tokens (hnames : src.template.WellNamed)
    (hp : p ∈ (expandAll src).2.applications) : p.head ∉ src.template.tokens := by
  obtain ⟨inst, hinst, rfl⟩ := List.mem_map.mp hp
  exact head_not_mem_of_mem_instances hnames (Array.mem_toList_iff.mp hinst)

/-! ## Names -/

variable {σ : Sorting}

/-- Instances that are written alike are the same. -/
theorem text_inj_of_mem_applications (hnames : src.template.WellNamed)
    (hσ : src.template.SortedBy σ) (hplain : src.template.PlainNames) {q : Parameter}
    (hp : p ∈ (expandAll src).2.applications) (hq : q ∈ (expandAll src).2.applications)
    (h : p.text = q.text) : p = q :=
  have hreadable := Template.readable_of_reachable hnames hσ hplain
    (reachable_of_mem_applications hnames hp)
  hreadable.text_inj
    (Template.readable_of_reachable hnames hσ hplain (reachable_of_mem_applications hnames hq)) h

/-- No instance is written like a token. -/
theorem text_not_mem_tokens (hnames : src.template.WellNamed) (hσ : src.template.SortedBy σ)
    (hplain : src.template.PlainNames) (hp : p ∈ (expandAll src).2.applications) :
    p.text ∉ src.template.tokens := by
  intro htoken
  have hread := Template.readable_of_reachable hnames hσ hplain
    (reachable_of_mem_applications hnames hp)
  have hname : (Parameter.var p.text).Readable :=
    ⟨trivial, List.forall_mem_singleton.mpr (hplain _ (List.mem_append_left _ htoken))⟩
  have hvar : p = .var p.text := hread.text_inj hname rfl
  rw [hvar] at hp
  exact head_not_mem_tokens hnames hp htoken

/-- Tokens and instances have different names. -/
theorem nodup_names (src : ExpansionSource) (hnames : src.template.WellNamed)
    (hσ : src.template.SortedBy σ) (hplain : src.template.PlainNames) :
    (src.template.tokens ++ (expandAll src).2.applications.map Parameter.text).Nodup := by
  refine List.nodup_append.mpr ⟨(List.nodup_append.mp hnames.globals).1, ?_, ?_⟩
  · exact (nodup_applications src).map_on fun p hp q hq h =>
      text_inj_of_mem_applications hnames hσ hplain hp hq h
  · rintro name htoken _ hname rfl
    obtain ⟨p, hp, rfl⟩ := List.mem_map.mp hname
    exact text_not_mem_tokens hnames hσ hplain hp htoken

/-! ## Rules -/

/-- Both sides of a rule of an instance. -/
def sidesOf (r : InstanceRule) : Nat × List Symbol := (r.owner, r.right)

/-- No two rules have the same sides. -/
def Unrepeated (x : Expansion) : Prop := (x.rules.toList.map sidesOf).Nodup

theorem Unrepeated.addRule (h : x.Unrepeated) (closed : Parameter) (r : InstanceRule) :
    (x.addRule closed r).Unrepeated := by
  unfold Expansion.addRule
  split
  · exact h
  · rename_i hnew
    rw [Unrepeated, Array.toList_push, List.map_append]
    refine List.nodup_append.mpr ⟨h, List.nodup_singleton _, ?_⟩
    rintro sides hold _ hlast rfl
    obtain rfl := List.mem_singleton.mp hlast
    obtain ⟨other, hother, hsides⟩ := List.mem_map.mp hold
    refine hnew (Array.any_eq_true'.mpr ⟨other, Array.mem_toList_iff.mp hother, ?_⟩)
    simpa [sidesOf] using hsides

theorem Unrepeated.expandBranches {y : Expansion} {branches : List (Branch × Nat)}
    (h : x.Unrepeated)
    (hrun : Expansion.expandBranches src owner inst env x branches = (.ok (), y)) :
    y.Unrepeated := by
  induction branches generalizing x with
  | nil =>
    cases hrun
    exact h
  | cons entry rest ih =>
    obtain ⟨x', right, precedence, hresolve, _, hrest⟩ := exists_of_expandBranches_cons hrun
    have hx' : x'.Unrepeated := by
      rw [Unrepeated, (resolveAll_spec hresolve).1.rules]
      exact h
    exact ih (hx'.addRule _ _) hrest

theorem unrepeated_of_expandAll (h : expandAll src = (.ok (), x)) : x.Unrepeated := by
  obtain ⟨_, _, hlast⟩ := kept_of_expandAll (P := fun x _ => x.Unrepeated) h
    (fun _ hbegun => by
      rw [Unrepeated, (instances_begun hbegun).2.1]
      exact List.nodup_nil)
    (fun _ hx => hx)
    fun hx _ hrun => hx.expandBranches hrun
  exact hlast

/-- The members of a list with numbers have different ones. -/
theorem pairwise_zipIdx {α : Type} (l : List α) : l.zipIdx.Pairwise (·.2 ≠ ·.2) :=
  List.pairwise_map.mp (List.nodup_zipIdx_map_snd l)

/-- No rule is listed twice in the order of the template. -/
theorem nodup_orderedRules (h : x.rules.toList.Nodup) (t : Template) :
    (x.orderedRules t).Nodup := by
  rw [orderedRules, List.nodup_flatMap]
  refine ⟨fun row _ => List.nodup_flatMap.mpr ⟨fun _ _ => h.filter _, ?_⟩, ?_⟩
  · refine (pairwise_zipIdx _).imp fun hne r hr hr' => hne ?_
    simp only [List.mem_filter, Bool.and_eq_true, beq_iff_eq] at hr hr'
    exact hr.2.2.symm.trans hr'.2.2
  · refine (pairwise_zipIdx _).imp fun hne r hr hr' => hne ?_
    simp only [List.mem_flatMap, List.mem_filter, Bool.and_eq_true, beq_iff_eq] at hr hr'
    obtain ⟨_, _, _, hsource, _⟩ := hr
    obtain ⟨_, _, _, hsource', _⟩ := hr'
    exact hsource.symm.trans hsource'

theorem Unrepeated.nodup_sides (h : x.Unrepeated) (t : Template) :
    ((x.orderedRules t).map sidesOf).Nodup := by
  refine (nodup_orderedRules (.of_map _ h) t).map_on fun r hr r' hr' hsides => ?_
  have hmem : ∀ r ∈ x.orderedRules t, r ∈ x.rules.toList := by
    intro r hr
    simp only [orderedRules, List.mem_flatMap, List.mem_filter] at hr
    obtain ⟨_, _, _, _, hr, _⟩ := hr
    exact hr
  exact List.inj_on_of_nodup_map h (hmem r hr) (hmem r' hr') hsides

/-! ## Declarations -/

theorem names_of_declarations : (x.declarations src).filterMap Declaration.name? =
    src.template.tokens ++ x.applications.map Parameter.text := by
  simp [declarations, applications, List.filterMap_map, Function.comp_def, Declaration.name?]

theorem sides_of_declarations : (x.declarations src).filterMap Declaration.sides? =
    ((x.orderedRules src.template).map sidesOf).map (Prod.map (· + 1) id) := by
  simp [declarations, sidesOf, List.filterMap_map, Function.comp_def, Declaration.sides?]

/-! ## Refusals -/

/-- That a definition is refused is not a failure of the instances. -/
theorem Failure.ne_definition {e : ExpansionError} (h : Failure src e) (cause : DefinitionError) :
    e ≠ .definition cause := by
  rintro rfl
  cases h with
  | rewriting _ hsubst =>
    obtain ⟨_, _, _, _, _, _, he⟩ := Parameter.exists_part_of_subst_eq_error hsubst
    cases he
  | instantiation _ _ hsource =>
    rcases sourceOf_error_cases hsource with he | he | he | he <;> cases he

end Expansion

namespace Template

variable {sorts : RuleSorts}

/-- What is refused are the declarations of an expansion that has ended well. -/
theorem define_of_expand_eq_error {cause : DefinitionError} (hnames : t.WellNamed)
    (h : (t.expand sorts).result = .error (.definition cause)) :
    ∃ levels x, Expansion.expandAll ⟨t, sorts, levels⟩ = (.ok (), x) ∧
      Grammar.define (x.declarations ⟨t, sorts, levels⟩) = .error cause := by
  unfold expand at h
  split at h
  · rename_i hlevels
    obtain ⟨name, rfl⟩ := precedences_error hlevels
    cases h
  · rename_i levels hlevels
    dsimp only at h
    split at h
    · rename_i hall
      cases h
      exact absurd rfl ((Expansion.failure_of_expandAll hnames hall).1.ne_definition cause)
    · rename_i x hall
      split at h
      · rename_i hdefine
        cases h
        exact ⟨levels, x, hall, hdefine⟩
      · cases h

/-- If the names of rules and tokens are plain, different instances of a well-sorted template are
written differently, and none like a token.  Its expansion is not refused because a name or a rule
is declared twice. -/
theorem expand_repeats_nothing (hsorts : t.inferSorts = .ok sorts) (hplain : t.PlainNames) :
    (∀ levels, ∀ p ∈ (Expansion.expandAll ⟨t, sorts, levels⟩).2.applications,
      p.text ∉ t.tokens ∧ ∀ q ∈ (Expansion.expandAll ⟨t, sorts, levels⟩).2.applications,
        p ≠ q → p.text ≠ q.text) ∧
    (∀ name, (t.expand sorts).result ≠ .error (.definition (.redeclared name))) ∧
    ∀ left, (t.expand sorts).result ≠ .error (.definition (.duplicateRule left)) := by
  have hnames := wellNamed_of_inferSorts hsorts
  obtain ⟨σ, hσ, _⟩ := exists_sortedBy_of_inferSorts hsorts
  refine ⟨fun levels p hp => ⟨?_, fun q hq hne htext => hne ?_⟩, fun name h => ?_, fun left h => ?_⟩
  · exact Expansion.text_not_mem_tokens hnames hσ hplain hp
  · exact Expansion.text_inj_of_mem_applications hnames hσ hplain hp hq htext
  · obtain ⟨levels, x, hall, hdefine⟩ := define_of_expand_eq_error hnames h
    refine Grammar.define_ne_redeclared ?_ name hdefine
    rw [Expansion.names_of_declarations]
    have hnodup := Expansion.nodup_names ⟨t, sorts, levels⟩ hnames hσ hplain
    rwa [hall] at hnodup
  · obtain ⟨levels, x, hall, hdefine⟩ := define_of_expand_eq_error hnames h
    refine Grammar.define_ne_duplicateRule ?_ left hdefine
    rw [Expansion.sides_of_declarations]
    refine ((Expansion.unrepeated_of_expandAll hall).nodup_sides t).map fun r r' hsides => ?_
    simpa [Prod.ext_iff] using hsides

/-- Pairs of pairs, with a rule that repeats a right-hand side. -/
def nestedPairs : Template where
  tokens := ["a", "b"]
  levels := []
  rules :=
    [Samples.plainRule "main"
        [[.app "pair" [.app "pair" [.var "a", .var "b"], .var "a"],
          .app "pair" [.var "a", .app "pair" [.var "b", .var "a"]]]],
      ⟨"pair", ["X", "Y"],
        [Samples.branch [.var "X", .var "Y"], Samples.branch [.var "X", .var "Y"]]⟩]
  start := none

/-- The sorts of the rules of `nestedPairs`. -/
def nestedPairsSorts : RuleSorts := [("main", .star), ("pair", .arrow [.star, .star])]

theorem expand_repeats_nothing_nestedPairs :
    let src : ExpansionSource := ⟨nestedPairs, nestedPairsSorts, ∅⟩
    let left := Parameter.app "pair" [.app "pair" [.var "a", .var "b"], .var "a"]
    let right := Parameter.app "pair" [.var "a", .app "pair" [.var "b", .var "a"]]
    nestedPairs.inferSorts = .ok nestedPairsSorts ∧ nestedPairs.PlainNames ∧
      left ∈ (Expansion.expandAll src).2.applications ∧
      right ∈ (Expansion.expandAll src).2.applications ∧ left.text ≠ right.text ∧
      (∀ name, (nestedPairs.expand nestedPairsSorts).result ≠
        .error (.definition (.redeclared name))) ∧
      ∀ owner, (nestedPairs.expand nestedPairsSorts).result ≠
        .error (.definition (.duplicateRule owner)) := by
  intro src left right
  have hsorts : nestedPairs.inferSorts = .ok nestedPairsSorts :=
    eq_ok_of_toOption_eq_some (by decide +kernel)
  have hplain : nestedPairs.PlainNames := by
    unfold PlainNames
    decide +kernel
  have hbegun : Expansion.empty.instantiate src (.var "main") =
      (.ok 0, (Expansion.empty.instantiate src (.var "main")).2) :=
    Prod.ext (eq_ok_of_toOption_eq_some (by decide +kernel)) rfl
  have hall := Expansion.expandAll_eq_expandUpTo 5 rfl hbegun (by decide +kernel)
  have hleft : left ∈ (Expansion.expandAll src).2.applications := by
    rw [hall]
    decide +kernel
  have hright : right ∈ (Expansion.expandAll src).2.applications := by
    rw [hall]
    decide +kernel
  obtain ⟨htexts, hnames, hrules⟩ := expand_repeats_nothing hsorts hplain
  exact ⟨hsorts, hplain, hleft, hright, (htexts ∅ left hleft).2 right hright (by decide), hnames,
    hrules⟩

end Template
end ParserGen
