import ParserGen.Proofs.Template.Rewriting
import ParserGen.Proofs.Template.SortInference

/-!
# Well-sorted instances

If a sorting fits a template, every closed application that can be reached from its start symbol has
the sort `*` in the sorts of the rules and tokens.  An actual parameter has the sort of the formal
one that it is bound to, so a name that stands for it may be used where the formal parameter was.

Main results:

- Theorem `Parameter.HasSort.instantiate`: names may stand for parameters of the same sort.
- Theorem `Template.WellSorted.unfolds`: a well-sorted closed application becomes well-sorted ones.
- Theorem `Template.exists_rule_of_reachable`: what can be reached is a token or an application of a
  rule to as many arguments as it has formal parameters.
-/

namespace ParserGen
namespace Parameter

variable {env env' : String → GroundSort} {stands : String → Parameter} {p q : Parameter}
  {ps : List Parameter} {s : GroundSort} {sorts : List GroundSort} {head name : String}

/-! ## Sorts of applications -/

/-- What takes parameters is a name. -/
theorem HasSort.eq_var (h : p.HasSort env s) (hs : s.domain ≠ []) : p = .var p.head := by
  cases p with
  | var name => rfl
  | app head args =>
    rw [HasSort] at h
    exact absurd (congrArg GroundSort.domain h.2) hs

/-- What has the sort `*` is applied to as many arguments as its head takes. -/
theorem HasSort.haveSorts_args (h : p.HasSort env .star) :
    HaveSorts env p.args (env p.head).domain := by
  cases p with
  | var name =>
    rw [HasSort] at h
    rw [head, h]
    trivial
  | app head args => exact h.1

/-- What a name stands for is applied to arguments of the sorts that it takes. -/
theorem HasSort.applyTo (h : p.HasSort env s) (hps : HaveSorts env ps s.domain) :
    (p.applyTo ps).HasSort env .star := by
  cases ps with
  | nil =>
    have hdomain : s.domain = [] := List.length_eq_zero_iff.mp hps.length_eq
    rw [← GroundSort.arrow_domain s, hdomain] at h
    exact h
  | cons q rest =>
    have hdomain : s.domain ≠ [] := fun hnil => by simpa [hnil] using hps.length_eq
    have hsort : env p.head = s := by
      rw [h.eq_var hdomain] at h
      exact h
    change (Parameter.app p.head (q :: rest)).HasSort env .star
    rw [HasSort, hsort]
    exact ⟨hps, rfl⟩

/-- Parameters that have the sorts of formal ones have them in pairs. -/
theorem HaveSorts.of_mem_zip {formals : List String} {f : String → GroundSort}
    (h : HaveSorts env ps (formals.map f)) (hmem : (name, p) ∈ formals.zip ps) :
    p.HasSort env (f name) := by
  induction formals generalizing ps with
  | nil => cases hmem
  | cons formal formals ih =>
    cases ps with
    | nil => cases hmem
    | cons actual ps =>
      rw [List.zip_cons_cons, List.mem_cons, Prod.mk.injEq] at hmem
      rcases hmem with ⟨rfl, rfl⟩ | hmem
      · exact h.1
      · exact ih h.2 hmem

mutual

/-- If names stand for parameters of the same sort, sorts are kept. -/
theorem HasSort.instantiate : ∀ {p : Parameter} {s : GroundSort}, p.HasSort env s →
    (∀ name ∈ p.names, (stands name).HasSort env' (env name)) →
    (p.instantiate stands).HasSort env' s
  | var name, s, h, hstands => by
    rw [HasSort] at h
    exact h ▸ hstands name List.mem_cons_self
  | app head args, s, h, hstands => by
    rw [HasSort] at h
    obtain ⟨hargs, rfl⟩ := h
    obtain ⟨hhead, hnames⟩ := List.forall_mem_cons.mp hstands
    exact hhead.applyTo (hargs.instantiateAll hnames)

theorem HaveSorts.instantiateAll : ∀ {ps : List Parameter} {sorts : List GroundSort},
    HaveSorts env ps sorts → (∀ name ∈ namesAll ps, (stands name).HasSort env' (env name)) →
    HaveSorts env' (instantiateAll stands ps) sorts
  | [], [], _, _ => trivial
  | [], _ :: _, h, _ => h.elim
  | _ :: _, [], h, _ => h.elim
  | p :: ps, s :: sorts, h, hstands => by
    obtain ⟨hp, hps⟩ := List.forall_mem_append.mp hstands
    exact ⟨h.1.instantiate hp, h.2.instantiateAll hps⟩

end

/-! ## Names that arise -/

theorem head_mem_names (p : Parameter) : p.head ∈ p.names := by
  cases p <;> exact List.mem_cons_self

theorem mem_namesAll : name ∈ namesAll ps ↔ ∃ p ∈ ps, name ∈ p.names := by
  induction ps with
  | nil => simp [namesAll]
  | cons p rest ih => simp [namesAll, ih]

theorem names_args_subset (hq : q ∈ p.args) : q.names ⊆ p.names := by
  cases p with
  | var name => cases hq
  | app head args =>
    exact fun name hname => List.mem_cons_of_mem _ (mem_namesAll.mpr ⟨q, hq, hname⟩)

theorem names_applyTo_subset : (p.applyTo ps).names ⊆ p.names ++ namesAll ps := by
  unfold applyTo
  split
  · exact List.subset_append_left ..
  · exact List.cons_subset.mpr ⟨List.mem_append_left _ p.head_mem_names,
      List.subset_append_right ..⟩

mutual

/-- The names that arise are those of what names stand for. -/
theorem exists_of_mem_names_instantiate : ∀ {p : Parameter},
    name ∈ (p.instantiate stands).names → ∃ key ∈ p.names, name ∈ (stands key).names
  | var key, h => ⟨key, List.mem_cons_self, h⟩
  | app head args, h => by
    rcases List.mem_append.mp (names_applyTo_subset h) with h | h
    · exact ⟨head, List.mem_cons_self, h⟩
    · obtain ⟨key, hkey, hname⟩ := exists_of_mem_namesAll_instantiateAll h
      exact ⟨key, List.mem_cons_of_mem _ hkey, hname⟩

theorem exists_of_mem_namesAll_instantiateAll : ∀ {ps : List Parameter},
    name ∈ namesAll (instantiateAll stands ps) → ∃ key ∈ namesAll ps, name ∈ (stands key).names
  | p :: ps, h => by
    rcases List.mem_append.mp h with h | h
    · obtain ⟨key, hkey, hname⟩ := exists_of_mem_names_instantiate h
      exact ⟨key, List.mem_append_left _ hkey, hname⟩
    · obtain ⟨key, hkey, hname⟩ := exists_of_mem_namesAll_instantiateAll h
      exact ⟨key, List.mem_append_right _ hkey, hname⟩

end

end Parameter

/-! ## Closed applications -/

namespace Template

variable {t : Template} {σ : Sorting} {rule : TemplateRule} {closed p : Parameter}
  {elements : List Parameter} {name : String} {s : GroundSort} {sorts : RuleSorts}

/-- The sorts of the names outside the rules. -/
def globalSort (t : Template) (σ : Sorting) (name : String) : GroundSort :=
  if name ∈ t.ruleNames then σ.rule name else .star

theorem globalSort_rule (hr : rule ∈ t.rules) : t.globalSort σ rule.name = σ.rule rule.name :=
  if_pos (List.mem_map_of_mem hr)

/-- A closed parameter is made of rules and tokens, and has a sort. -/
structure WellSorted (t : Template) (σ : Sorting) (p : Parameter) (s : GroundSort) : Prop where
  known : ∀ name ∈ p.names, name ∈ t.tokens ∨ name ∈ t.ruleNames
  hasSort : p.HasSort (t.globalSort σ) s

/-- The arguments of a well-sorted application have the sorts of the formal parameters. -/
theorem WellSorted.of_mem_zip (h : t.WellSorted σ closed .star) (hσ : t.SortedBy σ)
    (hr : rule ∈ t.rules) (hhead : closed.head = rule.name)
    (hmem : (name, p) ∈ rule.formals.zip closed.args) :
    t.WellSorted σ p (σ.formal rule.name name) where
  known key hkey := h.known key (Parameter.names_args_subset (List.of_mem_zip hmem).2 hkey)
  hasSort := by
    have hargs := h.hasSort.haveSorts_args
    rw [hhead, globalSort_rule hr, hσ.rules rule hr] at hargs
    exact hargs.of_mem_zip hmem

/-- What a name in a rule stands for has the sort that the name has there. -/
theorem WellSorted.standsFor (h : t.WellSorted σ closed .star) (hσ : t.SortedBy σ)
    (hr : rule ∈ t.rules) (hhead : closed.head = rule.name)
    (hlength : closed.args.length = rule.formals.length)
    (hknown : name ∈ rule.formals ∨ name ∈ t.tokens ∨ name ∈ t.ruleNames) :
    t.WellSorted σ (rule.standsFor closed.args name) (t.sortOf σ rule name) := by
  rw [TemplateRule.standsFor, Parameter.standsIn]
  cases hlookup : (rule.formals.zip closed.args).lookup name with
  | some actual =>
    have hmem := Parameter.mem_of_lookup hlookup
    rw [sortOf, if_pos (List.of_mem_zip hmem).1]
    exact h.of_mem_zip hσ hr hhead hmem
  | none =>
    have hformal : name ∉ rule.formals := by
      intro hformal
      rw [← List.map_fst_zip (Nat.le_of_eq hlength.symm)] at hformal
      obtain ⟨entry, hentry, rfl⟩ := List.mem_map.mp hformal
      simpa using List.lookup_eq_none_iff.mp hlookup entry hentry
    rw [sortOf, if_neg hformal]
    exact ⟨List.forall_mem_singleton.mpr (hknown.resolve_left hformal), rfl⟩

/-- A well-sorted closed application becomes well-sorted ones. -/
theorem WellSorted.unfolds (h : t.WellSorted σ closed .star) (hnames : t.WellNamed)
    (hσ : t.SortedBy σ) (hunfolds : t.Unfolds closed elements) :
    ∀ p ∈ elements, t.WellSorted σ p .star := by
  obtain ⟨rule, hr, branch, hbranch, hhead, hlength, rfl⟩ := hunfolds
  intro p hp
  obtain ⟨q, hq, rfl⟩ := List.mem_map.mp hp
  have hstands : ∀ name ∈ q.names,
      t.WellSorted σ (rule.standsFor closed.args name) (t.sortOf σ rule name) :=
    fun name hname =>
      h.standsFor hσ hr hhead hlength (hnames.known rule hr branch hbranch q hq name hname)
  constructor
  · intro name hname
    obtain ⟨key, hkey, hname⟩ := Parameter.exists_of_mem_names_instantiate hname
    exact (hstands key hkey).known name hname
  · exact (hσ.symbols rule hr branch hbranch q hq).instantiate fun name hname =>
      (hstands name hname).hasSort

/-- What can be reached is well-sorted. -/
theorem wellSorted_of_reachable (hnames : t.WellNamed) (hσ : t.SortedBy σ) (h : t.Reachable p) :
    t.WellSorted σ p .star := by
  obtain ⟨name, hstart, hreach⟩ := h
  induction hreach with
  | refl =>
    obtain ⟨name', hrule, hstart'⟩ := hnames.start
    cases hstart.symm.trans hstart'
    refine ⟨List.forall_mem_singleton.mpr (Or.inr hrule), ?_⟩
    rw [Parameter.HasSort, globalSort, if_pos hrule, hσ.start name hstart]
  | tail _ hmentions ih =>
    obtain ⟨elements, hunfolds, hp⟩ := hmentions
    exact ih.unfolds hnames hσ hunfolds _ hp

/-- What can be reached is a token, or an application of a rule to as many arguments as it has
formal parameters. -/
theorem exists_rule_of_reachable (hnames : t.WellNamed) (hσ : t.SortedBy σ) (hp : t.Reachable p) :
    p.head ∈ t.tokens ∧ p.args = [] ∨
      ∃ rule ∈ t.rules, p.head = rule.name ∧ p.args.length = rule.formals.length := by
  have h := wellSorted_of_reachable hnames hσ hp
  have hlength := h.hasSort.haveSorts_args.length_eq
  by_cases hrule : p.head ∈ t.ruleNames
  · obtain ⟨rule, hr, hname⟩ := List.mem_map.mp hrule
    refine Or.inr ⟨rule, hr, hname.symm, ?_⟩
    rw [← hname, globalSort_rule hr, hσ.rules rule hr] at hlength
    simpa [GroundSort.domain] using hlength.symm
  · rw [globalSort, if_neg hrule] at hlength
    exact Or.inl ⟨(h.known _ p.head_mem_names).resolve_right hrule,
      List.length_eq_zero_iff.mp hlength.symm⟩

/-- Sorts that are inferred are those of a sorting that fits. -/
theorem exists_sortedBy_of_inferSorts (h : t.inferSorts = .ok sorts) :
    ∃ σ, t.SortedBy σ ∧ sorts = t.sortsBy σ := by
  obtain ⟨base, a, globals, formals, b, hdeclared, hb, hread⟩ := exists_of_inferSorts_eq_ok h
  obtain ⟨_, σ, _, hσ, hread'⟩ := hdeclared.checks_sound hb
  exact ⟨σ, hσ, Except.ok.inj (hread.symm.trans hread')⟩

/-- A rule has the sort of an arrow with as many operands as it has formal parameters. -/
theorem WellNamed.lookup_sortsBy (hnames : t.WellNamed) (hσ : t.SortedBy σ) (hr : rule ∈ t.rules) :
    ∃ s, (t.sortsBy σ).lookup rule.name = some s ∧ s.arity = rule.formals.length := by
  have hnodup : ((t.sortsBy σ).map (·.1)).Nodup := by
    have hkeys : (t.sortsBy σ).map (·.1) = t.ruleNames := by simp [sortsBy, ruleNames]
    rw [hkeys]
    exact (List.nodup_append.mp hnames.globals).2.1
  refine ⟨σ.rule rule.name, (lookup_eq_some_iff_mem hnodup).mpr (List.mem_map_of_mem hr), ?_⟩
  rw [hσ.rules rule hr]
  simp [GroundSort.arity, GroundSort.domain]

end Template

/-- An application of a rule to as many arguments as it has formal parameters may be instantiated,
unless it is nested too deep. -/
theorem Expansion.sourceOf_eq_error {t : Template} {σ : Sorting}
    {levels : Std.TreeMap String Precedence} {closed : Parameter} {rule : TemplateRule}
    {e : ExpansionError} (hnames : t.WellNamed) (hσ : t.SortedBy σ) (hr : rule ∈ t.rules)
    (hhead : closed.head = rule.name) (hlength : closed.args.length = rule.formals.length)
    (h : sourceOf ⟨t, t.sortsBy σ, levels⟩ closed = .error e) :
    e = .diverging closed ∧ maxInstanceDepth < closed.depth := by
  obtain ⟨source, hnamed⟩ := hnames.exists_ruleNamed? hr
  obtain ⟨s, hlookup, harity⟩ := hnames.lookup_sortsBy hσ hr
  have hcount : ¬ (s.arity ≠ closed.args.length ∨ rule.formals.length ≠ closed.args.length) := by
    omega
  simp only [sourceOf, hhead, hnamed, hlookup, if_neg hcount] at h
  split at h
  · rename_i hdepth
    cases h
    exact ⟨rfl, hdepth⟩
  · cases h

end ParserGen
