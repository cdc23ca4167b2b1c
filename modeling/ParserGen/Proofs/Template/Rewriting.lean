import Mathlib.Data.List.Nodup
import Mathlib.Logic.Relation
import ParserGen.Proofs.Results
import ParserGen.Proofs.Template.Sorting
import ParserGen.Template.Expansion.Bound

/-!
# Rewriting closed applications

What a template derives is defined without expanding it: a closed application of a rule is replaced
by the elements of one of its branches, in which the formal parameters stand for the actual ones.
The substitution that expansion uses does the same where it succeeds.

Main results:

- Theorem `Parameter.subst_eq_instantiate`: where substitution succeeds, it puts for each name what
  the name stands for.
- Theorem `Parameter.normal_instantiate`: applications to no arguments do not arise.
- Theorem `Expansion.unfolds_iff`: a closed application is unfolded by the rule that
  expansion finds for it.
-/

namespace ParserGen

namespace Parameter

/-! ## Names and what they stand for -/

/-- Apply what a name stands for to arguments, if there are any. -/
def applyTo (p : Parameter) (args : List Parameter) : Parameter :=
  if args.isEmpty then p else .app p.head args

mutual

/-- Put for each name what it stands for.  A name that is applied stands for another name. -/
def instantiate (stands : String → Parameter) : Parameter → Parameter
  | var name => stands name
  | app head args => (stands head).applyTo (instantiateAll stands args)

def instantiateAll (stands : String → Parameter) : List Parameter → List Parameter
  | [] => []
  | p :: rest => p.instantiate stands :: instantiateAll stands rest

end

/-- What a name stands for among some bindings: a name that is not bound stands for itself. -/
def standsIn (env : Bindings) (name : String) : Parameter := (env.lookup name).getD (.var name)

/-- A head that is replaced by a name stands for that name. -/
theorem ofApplication_substHead {env : Bindings} {head name : String}
    (h : substHead env head = .ok name) (args : List Parameter) :
    ofApplication name args = (standsIn env head).applyTo args := by
  have hstands : standsIn env head = .var name := by
    unfold substHead at h
    unfold standsIn
    split at h
    · rename_i hnone
      cases h
      rw [hnone]
      rfl
    · rename_i hsome
      cases h
      rw [hsome]
      rfl
    · cases h
  rw [hstands]
  rfl

mutual

/-- Where substitution succeeds, it puts for each name what the name stands for. -/
theorem subst_eq_instantiate {env : Bindings} : ∀ {p q : Parameter}, p.subst env = .ok q →
    q = p.instantiate (standsIn env)
  | var name, q, h => by
      cases h
      rfl
  | app head args, q, h => by
      simp only [subst] at h
      split at h
      · cases h
      · rename_i args' hargs
        split at h
        · cases h
        · rename_i name hname
          cases h
          rw [ofApplication_substHead hname, substAll_eq_instantiateAll hargs]
          rfl

/-- Substitution, where it succeeds, puts for each name what it stands for. -/
theorem substAll_eq_instantiateAll {env : Bindings} : ∀ {ps qs : List Parameter},
    substAll env ps = .ok qs → qs = instantiateAll (standsIn env) ps
  | [], qs, h => by
      cases h
      rfl
  | p :: rest, qs, h => by
      simp only [substAll] at h
      split at h
      · cases h
      · rename_i p' hp
        split at h
        · cases h
        · rename_i rest' hrest
          cases h
          rw [subst_eq_instantiate hp, substAll_eq_instantiateAll hrest]
          rfl

end

/-! ## Applications to arguments -/

mutual

/-- Whether every application in a parameter has arguments. -/
def Normal : Parameter → Prop
  | var _ => True
  | app _ args => args ≠ [] ∧ NormalAll args

def NormalAll : List Parameter → Prop
  | [] => True
  | p :: rest => p.Normal ∧ NormalAll rest

end

theorem normalAll_iff {ps : List Parameter} : NormalAll ps ↔ ∀ p ∈ ps, p.Normal := by
  induction ps with
  | nil => simp [NormalAll]
  | cons p rest ih => simp [NormalAll, ih]

/-- A parameter without arguments is a name. -/
theorem Normal.eq_var {p : Parameter} (h : p.Normal) (hargs : p.args = []) : p = .var p.head := by
  cases p with
  | var name => rfl
  | app head args => exact absurd hargs h.1

/-- The arguments of a normal parameter are normal. -/
theorem Normal.of_mem_args {p q : Parameter} (h : p.Normal) (hq : q ∈ p.args) : q.Normal := by
  cases p with
  | var name => simp [args] at hq
  | app head args => exact normalAll_iff.mp h.2 q hq

/-- If what is bound is normal, each name stands for something normal. -/
theorem normal_standsIn {env : Bindings} (henv : ∀ b ∈ env, b.2.Normal) (name : String) :
    (standsIn env name).Normal := by
  unfold standsIn
  cases hl : env.lookup name with
  | none => trivial
  | some actual => exact henv _ (mem_of_lookup hl)

/-- A normal parameter that is applied to normal arguments is normal. -/
theorem normal_applyTo {p : Parameter} (hp : p.Normal) {args : List Parameter}
    (hargs : NormalAll args) : (p.applyTo args).Normal := by
  unfold applyTo
  split
  · exact hp
  · rename_i hne
    exact ⟨by simpa using hne, hargs⟩

mutual

/-- If each name stands for something normal, so does each parameter. -/
theorem normal_instantiate {stands : String → Parameter} (h : ∀ name, (stands name).Normal) :
    ∀ p : Parameter, (p.instantiate stands).Normal
  | var name => h name
  | app head args => normal_applyTo (h head) (normal_instantiateAll h args)

theorem normal_instantiateAll {stands : String → Parameter} (h : ∀ name, (stands name).Normal) :
    ∀ ps : List Parameter, NormalAll (instantiateAll stands ps)
  | [] => trivial
  | p :: rest => ⟨normal_instantiate h p, normal_instantiateAll h rest⟩

end

end Parameter

/-! ## Unfolding and deriving -/

/-- What a name stands for in a rule that is applied to actual parameters: formal parameters hide
what has the same name outside. -/
def TemplateRule.standsFor (rule : TemplateRule) (actuals : List Parameter) (name : String) :
    Parameter :=
  Parameter.standsIn (rule.formals.zip actuals) name

namespace Template

/-- A closed application becomes the elements of a branch of its rule. -/
def Unfolds (t : Template) (closed : Parameter) (elements : List Parameter) : Prop :=
  ∃ rule ∈ t.rules, ∃ branch ∈ rule.branches, closed.head = rule.name ∧
    closed.args.length = rule.formals.length ∧
    elements = branch.elements.map (Parameter.instantiate (rule.standsFor closed.args))

/-- Unfold one of several closed applications. -/
def Rewrites (t : Template) (x y : List Parameter) : Prop :=
  ∃ closed elements before after, t.Unfolds closed elements ∧
    x = before ++ closed :: after ∧ y = before ++ elements ++ after

/-- Unfold closed applications any number of times. -/
def Derives (t : Template) : List Parameter → List Parameter → Prop :=
  Relation.ReflTransGen t.Rewrites

/-- A closed application has another one among the elements it becomes. -/
def Mentions (t : Template) (p q : Parameter) : Prop :=
  ∃ elements, t.Unfolds p elements ∧ q ∈ elements

/-- A closed application can be reached from the start symbol. -/
def Reachable (t : Template) (p : Parameter) : Prop :=
  ∃ name, t.startName? = some name ∧ Relation.ReflTransGen t.Mentions (.var name) p

/-- Unfolding keeps applications to no arguments out. -/
theorem Unfolds.normal {t : Template} {closed : Parameter} {elements : List Parameter}
    (h : t.Unfolds closed elements) (hclosed : closed.Normal) : ∀ p ∈ elements, p.Normal := by
  obtain ⟨rule, _, branch, _, _, _, rfl⟩ := h
  intro p hp
  obtain ⟨q, _, rfl⟩ := List.mem_map.mp hp
  refine Parameter.normal_instantiate (fun name => Parameter.normal_standsIn ?_ name) q
  exact fun b hb => hclosed.of_mem_args (List.of_mem_zip hb).2

/-- What normal parameters derive is normal. -/
theorem Derives.normal {t : Template} {ps qs : List Parameter} (h : t.Derives ps qs)
    (hps : ∀ p ∈ ps, p.Normal) : ∀ q ∈ qs, q.Normal := by
  induction h with
  | refl => exact hps
  | tail _ hstep ih =>
    obtain ⟨closed, elements, before, after, hunfolds, rfl, rfl⟩ := hstep
    simp only [List.forall_mem_append, List.forall_mem_cons] at ih ⊢
    exact ⟨⟨ih.1, hunfolds.normal ih.2.1⟩, ih.2.2⟩

/-! ## Names of rules and tokens -/

variable {t : Template} {name : String} {rule : TemplateRule} {i source : Nat}

/-- The rule that is found has the name that was looked for. -/
theorem ruleNamed?_eq_some (h : t.ruleNamed? name = some (rule, source)) :
    t.rules[source]? = some rule ∧ rule.name = name := by
  have hmem := List.mem_reverse.mp (List.mem_of_find?_eq_some h)
  refine ⟨List.mem_zipIdx_iff_getElem?.mp hmem, ?_⟩
  simpa using List.find?_some h

/-- The token that is found has the name that was looked for. -/
theorem tokenNamed?_eq_some (h : t.tokenNamed? name = some i) : t.tokens[i]? = some name := by
  obtain ⟨⟨token, k⟩, hfind, rfl⟩ := Option.map_eq_some_iff.mp h
  have hmem := List.mem_reverse.mp (List.mem_of_find?_eq_some hfind)
  have hname : token = name := by simpa using List.find?_some hfind
  rw [← hname]
  exact List.mem_zipIdx_iff_getElem?.mp hmem

/-- Every token is found by its name. -/
theorem isSome_tokenNamed? (h : name ∈ t.tokens) : ∃ i, t.tokenNamed? name = some i := by
  obtain ⟨i, hi⟩ := List.mem_iff_getElem?.mp h
  rw [← Option.isSome_iff_exists, tokenNamed?, Option.isSome_map, List.find?_isSome]
  exact ⟨(name, i), List.mem_reverse.mpr (List.mem_zipIdx_iff_getElem?.mpr hi), by simp⟩

namespace WellNamed

/-- A token is known by its name only. -/
theorem tokenNamed?_iff (h : t.WellNamed) :
    t.tokenNamed? name = some i ↔ t.tokens[i]? = some name := by
  refine ⟨tokenNamed?_eq_some, fun hi => ?_⟩
  obtain ⟨j, hj⟩ := isSome_tokenNamed? (List.mem_of_getElem? hi)
  have hget := tokenNamed?_eq_some hj
  obtain ⟨hlt, _⟩ := List.getElem?_eq_some_iff.mp hi
  have hsame := (List.getElem?_inj hlt (List.nodup_append.mp h.globals).1).mp (hi.trans hget.symm)
  rw [hj, hsame]

/-- No two rules have the same name. -/
theorem eq_of_name_eq (h : t.WellNamed) {rule' : TemplateRule} (hr : rule ∈ t.rules)
    (hr' : rule' ∈ t.rules) (hname : rule.name = rule'.name) : rule = rule' :=
  List.inj_on_of_nodup_map (List.nodup_append.mp h.globals).2.1 hr hr' hname

/-- A rule is found by its name. -/
theorem exists_ruleNamed? (h : t.WellNamed) (hr : rule ∈ t.rules) :
    ∃ source, t.ruleNamed? rule.name = some (rule, source) := by
  obtain ⟨i, hi⟩ := List.mem_iff_getElem?.mp hr
  have hsome : (t.ruleNamed? rule.name).isSome := by
    rw [ruleNamed?, List.find?_isSome]
    exact ⟨(rule, i), List.mem_reverse.mpr (List.mem_zipIdx_iff_getElem?.mpr hi), by simp⟩
  obtain ⟨⟨rule', source⟩, hnamed⟩ := Option.isSome_iff_exists.mp hsome
  obtain ⟨hget, hname⟩ := ruleNamed?_eq_some hnamed
  rw [h.eq_of_name_eq (List.mem_of_getElem? hget) hr hname] at hnamed
  exact ⟨source, hnamed⟩

/-- A rule is known by its name only. -/
theorem ruleNamed?_iff (h : t.WellNamed) : t.ruleNamed? name = some (rule, source) ↔
    t.rules[source]? = some rule ∧ rule.name = name := by
  refine ⟨ruleNamed?_eq_some, ?_⟩
  rintro ⟨hi, rfl⟩
  obtain ⟨j, hnamed⟩ := h.exists_ruleNamed? (List.mem_of_getElem? hi)
  have hget := (ruleNamed?_eq_some hnamed).1
  have hnodup : t.rules.Nodup := .of_map _ (List.nodup_append.mp h.globals).2.1
  obtain ⟨hlt, _⟩ := List.getElem?_eq_some_iff.mp hi
  rw [hnamed, (List.getElem?_inj hlt hnodup).mp (hi.trans hget.symm)]

/-- A rule does not have the name of a token. -/
theorem not_mem_tokens (h : t.WellNamed) (hr : rule ∈ t.rules) : rule.name ∉ t.tokens :=
  fun htoken => (List.nodup_append.mp h.globals).2.2 _ htoken _ (List.mem_map_of_mem hr) rfl

/-- If no formal parameter is repeated, it does not matter which one counts. -/
theorem standsIn_ofLists (h : t.WellNamed) (hr : rule ∈ t.rules) {actuals : List Parameter}
    (hlength : rule.formals.length = actuals.length) :
    Parameter.standsIn (Bindings.ofLists rule.formals actuals) = rule.standsFor actuals := by
  have hnodup : ((rule.formals.zip actuals).map (·.1)).Nodup := by
    rw [List.map_fst_zip (Nat.le_of_eq hlength)]
    exact h.formals rule hr
  funext key
  have hlookup : (Bindings.ofLists rule.formals actuals).lookup key =
      (rule.formals.zip actuals).lookup key := by
    refine Option.ext fun v => ?_
    rw [lookup_eq_some_iff_mem hnodup, Bindings.ofLists, lookup_eq_some_iff_mem, List.mem_reverse]
    rw [List.map_reverse]
    exact List.nodup_reverse.mpr hnodup
  rw [TemplateRule.standsFor, Parameter.standsIn, Parameter.standsIn, hlookup]

end WellNamed
end Template

namespace Expansion

variable {src : ExpansionSource} {closed : Parameter} {source : Nat}

/-- A closed application that may be instantiated is one of the rule that its head names. -/
theorem ruleNamed?_of_sourceOf (h : sourceOf src closed = .ok source) :
    ∃ rule, src.template.ruleNamed? closed.head = some (rule, source) ∧
      rule.formals.length = closed.args.length := by
  unfold sourceOf at h
  split at h
  · cases h
  · rename_i rule k hnamed
    split at h
    · cases h
    · split at h
      · cases h
      · rename_i hcount
        split at h
        · cases h
        · cases h
          rw [not_or, not_not, not_not] at hcount
          exact ⟨rule, hnamed, hcount.2⟩

/-- An application is given a rule that its head names and that takes as many arguments. -/
theorem exists_rule_of_sourceOf (h : sourceOf src closed = .ok source) :
    ∃ rule, src.template.rules[source]? = some rule ∧ rule.name = closed.head ∧
      rule.formals.length = closed.args.length := by
  obtain ⟨rule, hnamed, hlength⟩ := ruleNamed?_of_sourceOf h
  obtain ⟨hget, hname⟩ := Template.ruleNamed?_eq_some hnamed
  exact ⟨rule, hget, hname, hlength⟩

/-- A closed application is unfolded by the branches of the rule that expansion finds for it. -/
theorem unfolds_iff (hnames : src.template.WellNamed) (h : sourceOf src closed = .ok source)
    {elements : List Parameter} :
    src.template.Unfolds closed elements ↔ ∃ branch ∈ src.template.branchesOf source,
      elements = branch.elements.map (Parameter.instantiate (Parameter.standsIn
        (Bindings.ofLists (src.template.formalsOf source) closed.args))) := by
  obtain ⟨rule, hget, hname, hlength⟩ := exists_rule_of_sourceOf h
  have hr := List.mem_of_getElem? hget
  rw [Template.branchesOf, Template.formalsOf, hget]
  simp only [Option.map_some, Option.getD_some, hnames.standsIn_ofLists hr hlength]
  constructor
  · rintro ⟨rule', hr', branch, hbranch, hhead, _, rfl⟩
    obtain rfl := hnames.eq_of_name_eq hr hr' (hname.trans hhead)
    exact ⟨branch, hbranch, rfl⟩
  · rintro ⟨branch, hbranch, rfl⟩
    exact ⟨rule, hr, branch, hbranch, hname.symm, hlength.symm, rfl⟩

end Expansion
end ParserGen
