import ParserGen.Proofs.Template.ExpandedLanguage
import ParserGen.Proofs.Template.SortedInstances

/-!
# Why an expansion fails

When an instance is expanded, the elements of its branches are rewritten, instances are made of what
they become, and the precedences that the branches name are looked up; each of these may fail.  If
the sorts of the template have been inferred, instances fail only where the expansion diverges, and
rewriting only where a formal parameter that is bound to an application is itself applied, to no
arguments.  Sort inference takes such an application for the bare name, while substitution does not.

Main results:

- Theorem `Parameter.exists_part_of_subst_eq_error`: substitution fails at a head that is bound to
  an application.
- Theorem `Expansion.failure_of_expandAll`: the causes of a failed expansion.
- Theorem `Template.Rewritten.subst_fails_iff`: which well-sorted elements cannot be rewritten.
- Theorem `Template.wellSorted_instances`: a failed expansion of a well-sorted template is not due
  to names, sorts or numbers of arguments.
-/

namespace ParserGen
namespace Parameter

variable {env : String → GroundSort} {p q : Parameter} {ps : List Parameter} {s : GroundSort}
  {head : String}

/-! ## Where substitution fails -/

mutual

/-- A parameter and the arguments in it, at any depth. -/
def parts : Parameter → List Parameter
  | var name => [var name]
  | app head args => app head args :: partsAll args

def partsAll : List Parameter → List Parameter
  | [] => []
  | p :: rest => p.parts ++ partsAll rest

end

mutual

/-- The parts of a parameter have sorts. -/
theorem HasSort.exists_of_mem_parts : ∀ {p : Parameter} {s : GroundSort}, p.HasSort env s →
    q ∈ p.parts → ∃ s, q.HasSort env s
  | var name, s, h, hq => ⟨s, List.mem_singleton.mp hq ▸ h⟩
  | app head args, s, h, hq => by
    rcases List.mem_cons.mp hq with rfl | hq
    · exact ⟨s, h⟩
    · rw [HasSort] at h
      exact h.1.exists_of_mem_partsAll hq

theorem HaveSorts.exists_of_mem_partsAll : ∀ {ps : List Parameter} {sorts : List GroundSort},
    HaveSorts env ps sorts → q ∈ partsAll ps → ∃ s, q.HasSort env s
  | p :: ps, s :: sorts, h, hq => by
    rcases List.mem_append.mp hq with hq | hq
    · exact h.1.exists_of_mem_parts hq
    · exact h.2.exists_of_mem_partsAll hq

end

variable {bindings : Bindings} {e : ExpansionError}

theorem substHead_eq_error (h : substHead bindings head = .error e) : ∃ f args,
    bindings.lookup head = some (.app f args) ∧ e = .appliedNonSymbol (.app f args) := by
  unfold substHead at h
  split at h
  · cases h
  · cases h
  · rename_i actual hnot hlookup
    cases actual with
    | var name => exact absurd rfl (hnot name)
    | app f args =>
      cases h
      exact ⟨f, args, hlookup, rfl⟩

mutual

/-- Substitution fails at a head that is bound to an application. -/
theorem exists_part_of_subst_eq_error : ∀ {p : Parameter}, p.subst bindings = .error e →
    ∃ head args f actuals, .app head args ∈ p.parts ∧
      bindings.lookup head = some (.app f actuals) ∧ e = .appliedNonSymbol (.app f actuals)
  | app head args, h => by
    simp only [subst] at h
    split at h
    · rename_i hargs
      cases h
      obtain ⟨head', args', f, actuals, hpart, hfault⟩ := exists_part_of_substAll_eq_error hargs
      exact ⟨head', args', f, actuals, List.mem_cons_of_mem _ hpart, hfault⟩
    · split at h
      · rename_i hhead
        cases h
        obtain ⟨f, actuals, hfault⟩ := substHead_eq_error hhead
        exact ⟨head, args, f, actuals, List.mem_cons_self, hfault⟩
      · cases h

theorem exists_part_of_substAll_eq_error : ∀ {ps : List Parameter},
    substAll bindings ps = .error e → ∃ head args f actuals, .app head args ∈ partsAll ps ∧
      bindings.lookup head = some (.app f actuals) ∧ e = .appliedNonSymbol (.app f actuals)
  | p :: ps, h => by
    simp only [substAll] at h
    split at h
    · rename_i hp
      cases h
      obtain ⟨head, args, f, actuals, hpart, hfault⟩ := exists_part_of_subst_eq_error hp
      exact ⟨head, args, f, actuals, List.mem_append_left _ hpart, hfault⟩
    · split at h
      · rename_i hps
        cases h
        obtain ⟨head, args, f, actuals, hpart, hfault⟩ := exists_part_of_substAll_eq_error hps
        exact ⟨head, args, f, actuals, List.mem_append_right _ hpart, hfault⟩
      · cases h

end

mutual

/-- Where substitution succeeds, no head is bound to an application. -/
theorem ne_app_of_subst_eq_ok {args actuals : List Parameter} {f : String} :
    ∀ {p q : Parameter}, p.subst bindings = .ok q → .app head args ∈ p.parts →
      bindings.lookup head ≠ some (.app f actuals)
  | var name, q, _, hpart => nomatch List.mem_singleton.mp hpart
  | app head' args', q, h, hpart => by
    simp only [subst] at h
    split at h
    · cases h
    · rename_i hargs
      split at h
      · cases h
      · rename_i hhead
        rcases List.mem_cons.mp hpart with hpart | hpart
        · cases hpart
          intro hlookup
          rw [substHead, hlookup] at hhead
          cases hhead
        · exact ne_app_of_substAll_eq_ok hargs hpart

theorem ne_app_of_substAll_eq_ok {args actuals : List Parameter} {f : String} :
    ∀ {ps qs : List Parameter}, substAll bindings ps = .ok qs → .app head args ∈ partsAll ps →
      bindings.lookup head ≠ some (.app f actuals)
  | p :: ps, qs, h, hpart => by
    simp only [substAll] at h
    split at h
    · cases h
    · rename_i hp
      split at h
      · cases h
      · rename_i hps
        rcases List.mem_append.mp hpart with hpart | hpart
        · exact ne_app_of_subst_eq_ok hp hpart
        · exact ne_app_of_substAll_eq_ok hps hpart

end

end Parameter

/-- A name that is bound to the application `actual` is applied to no arguments in a parameter. -/
def Parameter.AppliesToNothing (p : Parameter) (bindings : Bindings) (actual : Parameter) : Prop :=
  ∃ head f args, .app head [] ∈ p.parts ∧ bindings.lookup head = some actual ∧
    actual = .app f args

/-! ## Failures of an expansion -/

/-- When a closed application that can be reached is expanded, `q` is an element of a branch of its
rule, and the formal parameters of the rule have the bindings `env`. -/
def Template.Rewritten (t : Template) (env : Bindings) (q : Parameter) : Prop :=
  ∃ closed, t.Reachable closed ∧ ∃ rule ∈ t.rules, closed.head = rule.name ∧
    closed.args.length = rule.formals.length ∧ env = Bindings.ofLists rule.formals closed.args ∧
    ∃ branch ∈ rule.branches, q ∈ branch.elements

namespace Expansion

variable {src : ExpansionSource} {x y : Expansion} {closed : Parameter} {env : Bindings}
  {owner : Nat} {inst : RuleInstance} {e : ExpansionError}

/-- Why a closed application may not be instantiated. -/
theorem sourceOf_error_cases (h : sourceOf src closed = .error e) :
    e = .notARule closed.head ∨ e = .missingSort closed.head ∨ e = .wrongArgumentCount closed ∨
      e = .diverging closed := by
  unfold sourceOf at h
  split at h
  · cases h
    simp
  · split at h
    · cases h
      simp
    · split at h
      · cases h
        simp
      · split at h
        · cases h
          simp
        · cases h

theorem instantiate_error (h : x.instantiate src closed = (.error e, y)) :
    sourceOf src closed = .error e ∧ y = x := by
  unfold instantiate at h
  split at h
  · cases h
  · split at h
    · rename_i hsource
      cases h
      exact ⟨hsource, rfl⟩
    · cases h

theorem resolve_error (h : x.resolve src closed = (.error e, y)) :
    (src.token? closed = none ∧ sourceOf src closed = .error e) ∧ y = x := by
  have htoken := Eq.refl (src.token? closed)
  nth_rewrite 1 [ExpansionSource.token?] at htoken
  cases hcase : src.token? closed with
  | some i =>
    simp only [resolve, htoken, hcase] at h
    cases h
  | none =>
    simp only [resolve, htoken, hcase] at h
    split at h
    · cases h
    · rename_i hinstantiate
      cases h
      obtain ⟨hsource, rfl⟩ := instantiate_error hinstantiate
      exact ⟨⟨rfl, hsource⟩, rfl⟩

/-- Why an element of a branch has no symbol: it cannot be rewritten, or what it becomes cannot be
instantiated. -/
def ElementFails (src : ExpansionSource) (env : Bindings) (q : Parameter) (e : ExpansionError) :
    Prop :=
  q.subst env = .error e ∨
    let closed := q.instantiate (Parameter.standsIn env)
    src.token? closed = none ∧ sourceOf src closed = .error e

/-- If the elements of a branch have no symbols, one of them fails.  Only the elements before it
have been instantiated. -/
theorem resolveAll_error {ps : List Parameter} (h : resolveAll src env x ps = (.error e, y)) :
    (∃ q ∈ ps, ElementFails src env q e) ∧
      ∀ inst ∈ y.instances, inst ∈ x.instances ∨
        inst.closed ∈ ps.map (Parameter.instantiate (Parameter.standsIn env)) := by
  induction ps generalizing x with
  | nil => cases h
  | cons p rest ih =>
    simp only [resolveAll] at h
    split at h
    · rename_i hsubst
      cases h
      exact ⟨⟨p, List.mem_cons_self, Or.inl hsubst⟩, fun inst hi => Or.inl hi⟩
    · rename_i closed hsubst
      have hclosed := Parameter.subst_eq_instantiate hsubst
      split at h
      · rename_i hresolve
        cases h
        obtain ⟨hfails, rfl⟩ := resolve_error hresolve
        exact ⟨⟨p, List.mem_cons_self, Or.inr (hclosed ▸ hfails)⟩, fun inst hi => Or.inl hi⟩
      · rename_i symbol x' hresolve
        split at h
        · rename_i hrest
          cases h
          obtain ⟨⟨q, hq, hfails⟩, hinstances⟩ := ih hrest
          refine ⟨⟨q, List.mem_cons_of_mem _ hq, hfails⟩, fun inst hi => ?_⟩
          rw [List.map_cons, List.mem_cons, ← hclosed]
          rcases hinstances inst hi with hi | hi
          · rcases (resolve_spec hresolve).1.new inst hi with hi | ⟨hi, _⟩
            · exact Or.inl hi
            · exact Or.inr (Or.inl (List.mem_singleton.mp hi))
          · exact Or.inr (Or.inr hi)
        · cases h

/-- If the branches of an instance are not expanded, one of them fails: one of its elements, or the
precedence that it names. -/
theorem expandBranches_error {branches : List (Branch × Nat)}
    (h : expandBranches src owner inst env x branches = (.error e, y)) :
    (∃ b ∈ branches, (∃ q ∈ b.1.elements, ElementFails src env q e) ∨
      branchPrecedence src b.1 = .error e) ∧
    ∀ i ∈ y.instances, i ∈ x.instances ∨ ∃ b ∈ branches, i.closed ∈ Elements env b.1 := by
  induction branches generalizing x with
  | nil => cases h
  | cons entry rest ih =>
    obtain ⟨branch, b⟩ := entry
    simp only [expandBranches] at h
    split at h
    · rename_i hresolve
      cases h
      obtain ⟨hfails, hinstances⟩ := resolveAll_error hresolve
      exact ⟨⟨_, List.mem_cons_self, Or.inl hfails⟩, fun i hi =>
        (hinstances i hi).imp_right fun hmem => ⟨_, List.mem_cons_self, hmem⟩⟩
    · rename_i right x' hresolve
      have hadds := (resolveAll_spec hresolve).1
      have hnew : ∀ i ∈ x'.instances, i ∈ x.instances ∨
          ∃ b' ∈ (branch, b) :: rest, i.closed ∈ Elements env b'.1 := fun i hi =>
        (hadds.new i hi).imp_right fun hmem => ⟨_, List.mem_cons_self, hmem.1⟩
      split at h
      · rename_i hprecedence
        cases h
        exact ⟨⟨_, List.mem_cons_self, Or.inr hprecedence⟩, hnew⟩
      · rename_i precedence _
        obtain ⟨⟨entry, hentry, hfails⟩, hinstances⟩ := ih h
        refine ⟨⟨entry, List.mem_cons_of_mem _ hentry, hfails⟩, fun i hi => ?_⟩
        rcases hinstances i hi with hi | ⟨b', hb', hmem⟩
        · have hkept := (addRule_spec x' inst.closed ⟨inst.source, b, owner, right, precedence⟩).2.1
          exact hnew i (hkept ▸ hi)
        · exact Or.inr ⟨b', List.mem_cons_of_mem _ hb', hmem⟩

/-- Why an expansion fails: an element of a branch cannot be rewritten, a closed application cannot
be instantiated, or a branch names an unknown precedence. -/
inductive Failure (src : ExpansionSource) : ExpansionError → Prop
  | rewriting {env : Bindings} {q : Parameter} {e : ExpansionError} :
      src.template.Rewritten env q → q.subst env = .error e → Failure src e
  | instantiation {closed : Parameter} {e : ExpansionError} : src.template.Reachable closed →
      src.token? closed = none → sourceOf src closed = .error e → Failure src e
  | precedence {name : String} : src.levels[name]? = none → Failure src (.unknownPrecedence name)

theorem branchPrecedence_error {branch : Branch} (h : branchPrecedence src branch = .error e) :
    ∃ name, src.levels[name]? = none ∧ e = .unknownPrecedence name := by
  unfold branchPrecedence at h
  split at h
  · cases h
  · rename_i name _
    split at h
    · cases h
    · rename_i hlevel
      cases h
      exact ⟨name, hlevel, rfl⟩

/-- What the elements of an instance become can be reached. -/
theorem Sound.reachable_of_mem_elements {next : Nat} (h : x.Sound src next)
    (hnames : src.template.WellNamed) (hinst : inst ∈ x.instances) {branch : Branch}
    (hbranch : branch ∈ src.template.branchesOf inst.source) {p : Parameter}
    (hp : p ∈ Elements (bindings src inst) branch) : src.template.Reachable p := by
  obtain ⟨name, hstart, hreach⟩ := h.reachable inst hinst
  have hunfolds := (unfolds_iff hnames (h.source inst hinst).2).mpr ⟨branch, hbranch, rfl⟩
  exact ⟨name, hstart, hreach.tail ⟨_, hunfolds, hp⟩⟩

/-- The elements of the branches of an instance are rewritten. -/
theorem Sound.rewritten_of_mem_branches {next : Nat} (h : x.Sound src next)
    (hinst : inst ∈ x.instances) {branch : Branch}
    (hbranch : branch ∈ src.template.branchesOf inst.source) {q : Parameter}
    (hq : q ∈ branch.elements) : src.template.Rewritten (bindings src inst) q := by
  obtain ⟨rule, hget, hname, hlength⟩ := exists_rule_of_sourceOf (h.source inst hinst).2
  rw [Template.branchesOf, hget] at hbranch
  refine ⟨inst.closed, h.reachable inst hinst, rule, List.mem_of_getElem? hget, hname.symm,
    hlength.symm, ?_, branch, hbranch, hq⟩
  rw [bindings, Template.formalsOf, hget]
  rfl

/-- If the next instance is not expanded, there is a cause, and all instances can be reached. -/
theorem Sound.failure_of_expandInstance (hnames : src.template.WellNamed) {next : Nat}
    (h : x.Sound src next) (hinst : x.instances[next]? = some inst)
    (hstep : x.expandInstance src next inst = (.error e, y)) :
    Failure src e ∧ ∀ i ∈ y.instances, src.template.Reachable i.closed := by
  have hmem := Array.mem_of_getElem? hinst
  have hbranches : ∀ b ∈ (src.template.branchesOf inst.source).zipIdx,
      b.1 ∈ src.template.branchesOf inst.source := fun b hb =>
    List.mem_of_getElem? (List.mem_zipIdx_iff_getElem?.mp hb)
  obtain ⟨⟨b, hb, hfails⟩, hinstances⟩ := expandBranches_error hstep
  constructor
  · rcases hfails with ⟨q, hq, hsubst | ⟨htoken, hsource⟩⟩ | hprecedence
    · exact .rewriting (h.rewritten_of_mem_branches hmem (hbranches b hb) hq) hsubst
    · exact .instantiation (h.reachable_of_mem_elements hnames hmem (hbranches b hb)
        (List.mem_map_of_mem hq)) htoken hsource
    · obtain ⟨name, hlevel, rfl⟩ := branchPrecedence_error hprecedence
      exact .precedence hlevel
  · intro i hi
    rcases hinstances i hi with hi | ⟨b', hb', hp⟩
    · exact h.reachable i hi
    · exact h.reachable_of_mem_elements hnames hmem (hbranches b' hb') hp

/-- If an expansion fails, there is a cause, and all instances can be reached. -/
theorem failure_of_expandAll (hnames : src.template.WellNamed) (h : expandAll src = (.error e, y)) :
    Failure src e ∧ ∀ i ∈ y.instances, src.template.Reachable i.closed := by
  obtain ⟨start, hrule, hstart⟩ := hnames.start
  obtain ⟨_, hruns⟩ := runs_of_expandAll h
  cases hruns with
  | noStart hnone => cases hstart.symm.trans hnone
  | refused hname hbegun =>
    cases hname.symm.trans hstart
    obtain ⟨hsource, rfl⟩ := instantiate_error hbegun
    obtain ⟨rule, hr, rfl⟩ := List.mem_map.mp hrule
    have hhead : (Parameter.var rule.name).head = rule.name := rfl
    have htoken := ExpansionSource.token?_eq_none_of_rule hnames hr hhead
    exact ⟨.instantiation ⟨_, hstart, .refl⟩ htoken hsource, by simp [empty]⟩
  | begun hname hbegun hturns =>
    have hsound := sound_begun hnames hname hbegun
    obtain ⟨x, next, inst, hx, hinst, hrun⟩ := hturns.failure (P := Sound src)
      (fun rest hx => hx.popped rest) (fun hx hinst hrun => hx.expandInstance hnames hinst hrun)
      (bounded_begun hname hbegun) hsound
    exact hx.failure_of_expandInstance hnames hinst hrun

/-- All instances can be reached, also if an expansion fails. -/
theorem reachable_of_mem_instances (hnames : src.template.WellNamed)
    (hinst : inst ∈ (expandAll src).2.instances) : src.template.Reachable inst.closed := by
  cases hall : expandAll src with
  | mk result x =>
    rw [hall] at hinst
    cases result with
    | error e => exact (failure_of_expandAll hnames hall).2 inst hinst
    | ok => exact (finished_of_expandAll hnames hall).sound.reachable inst hinst

/-- Each number that waits is that of an instance, whatever the template and its sorts are. -/
theorem expandAll_ne_unknownInstance (src : ExpansionSource) (i : Nat) :
    (expandAll src).1 ≠ .error (.unknownInstance i) := by
  intro hall
  obtain ⟨_, hruns⟩ := runs_of_expandAll (Prod.ext hall rfl : expandAll src = (_, _))
  cases hruns with
  | refused hname hbegun =>
    obtain ⟨hsource, _⟩ := instantiate_error hbegun
    rcases sourceOf_error_cases hsource with he | he | he | he <;> cases he
  | begun hname hbegun hturns =>
    obtain ⟨_, _, inst, _, _, hrun⟩ := hturns.failure (P := fun _ _ => True) (fun _ _ => trivial)
      (fun _ _ _ => trivial) (bounded_begun hname hbegun) trivial
    obtain ⟨⟨_, _, ⟨q, _, hsubst | ⟨_, hsource⟩⟩ | hprecedence⟩, _⟩ := expandBranches_error hrun
    · obtain ⟨_, _, _, _, _, _, he⟩ := Parameter.exists_part_of_subst_eq_error hsubst
      cases he
    · rcases sourceOf_error_cases hsource with he | he | he | he <;> cases he
    · obtain ⟨_, _, he⟩ := branchPrecedence_error hprecedence
      cases he

end Expansion

/-! ## Well-sorted templates -/

namespace Template

variable {t : Template} {sorts : RuleSorts} {σ : Sorting} {env : Bindings} {q : Parameter}
  {e : ExpansionError}

theorem precedences_error {levels : List PrecedenceLevel} {table : Std.TreeMap String Precedence}
    {priority : Nat} (h : precedences table priority levels = .error e) :
    ∃ name, e = .tooManyLevels name := by
  induction levels generalizing table priority with
  | nil => cases h
  | cons level rest ih =>
    rw [precedences] at h
    split at h
    · exact ih h
    · cases h
      exact ⟨_, rfl⟩

/-- If an expansion fails, either there is a cause in the instances, or there are too many levels,
or the expanded grammar is refused. -/
theorem failure_of_expand (hnames : t.WellNamed) (h : (t.expand sorts).result = .error e) :
    (∃ levels, precedences ∅ 0 t.levels = .ok levels ∧ Expansion.Failure ⟨t, sorts, levels⟩ e) ∨
      (∃ name, e = .tooManyLevels name) ∨ ∃ cause, e = .definition cause := by
  unfold expand at h
  split at h
  · rename_i hlevels
    cases h
    exact Or.inr (Or.inl (precedences_error hlevels))
  · rename_i levels hlevels
    dsimp only at h
    split at h
    · rename_i hall
      cases h
      exact Or.inl ⟨levels, hlevels, (Expansion.failure_of_expandAll hnames hall).1⟩
    · split at h
      · cases h
        exact Or.inr (Or.inr ⟨_, rfl⟩)
      · cases h

theorem expand_eq_error {levels : Std.TreeMap String Precedence} {x : Expansion}
    (hlevels : precedences ∅ 0 t.levels = .ok levels)
    (h : Expansion.expandAll ⟨t, sorts, levels⟩ = (.error e, x)) :
    (t.expand sorts).result = .error e := by
  simp only [expand, hlevels, h]

/-- A formal parameter that is applied to arguments is bound to a name. -/
theorem Rewritten.eq_var (h : t.Rewritten env q) (hnames : t.WellNamed) (hσ : t.SortedBy σ)
    {head : String} {args : List Parameter} {actual : Parameter} (hpart : .app head args ∈ q.parts)
    (hlookup : env.lookup head = some actual) (hargs : args ≠ []) : actual = .var actual.head := by
  obtain ⟨closed, hreach, rule, hr, hhead, hlength, rfl, branch, hbranch, hq⟩ := h
  have hmem := List.mem_reverse.mp (Parameter.mem_of_lookup hlookup)
  have hactual := (wellSorted_of_reachable hnames hσ hreach).of_mem_zip hσ hr hhead hmem
  -- The arguments give the formal parameter a sort that takes some.
  obtain ⟨s, hsort⟩ := (hσ.symbols rule hr branch hbranch q hq).exists_of_mem_parts hpart
  rw [Parameter.HasSort, sortOf, if_pos (List.of_mem_zip hmem).1] at hsort
  have hcount := hsort.1.length_eq
  refine hactual.hasSort.eq_var fun hdomain => hargs ?_
  rw [hdomain] at hcount
  exact List.length_eq_zero_iff.mp hcount.symm

/-- When an element cannot be rewritten, a formal parameter in it that is bound to an application is
applied to no arguments. -/
theorem Rewritten.appliesToNothing (h : t.Rewritten env q) (hnames : t.WellNamed)
    (hσ : t.SortedBy σ) (he : q.subst env = .error e) :
    ∃ actual, q.AppliesToNothing env actual ∧ e = .appliedNonSymbol actual := by
  obtain ⟨head, args, f, actuals, hpart, hlookup, rfl⟩ := Parameter.exists_part_of_subst_eq_error he
  have hnil : args = [] := by
    by_contra hargs
    cases h.eq_var hnames hσ hpart hlookup hargs
  subst hnil
  exact ⟨_, ⟨head, f, actuals, hpart, hlookup, rfl⟩, rfl⟩

/-- An element cannot be rewritten if and only if a formal parameter in it that is bound to an
application is applied to no arguments. -/
theorem Rewritten.subst_fails_iff (h : t.Rewritten env q) (hnames : t.WellNamed)
    (hσ : t.SortedBy σ) :
    (∃ e, q.subst env = .error e) ↔ ∃ actual, q.AppliesToNothing env actual := by
  constructor
  · rintro ⟨e, he⟩
    obtain ⟨actual, happlies, _⟩ := h.appliesToNothing hnames hσ he
    exact ⟨actual, happlies⟩
  · rintro ⟨actual, head, f, args, hpart, hlookup, rfl⟩
    cases hsubst : q.subst env with
    | error e => exact ⟨e, rfl⟩
    | ok closed => exact absurd hlookup (Parameter.ne_app_of_subst_eq_ok hsubst hpart)

/-- Why the expansion of a well-sorted template fails. -/
theorem error_of_expand (hsorts : t.inferSorts = .ok sorts)
    (h : (t.expand sorts).result = .error e) :
    (∃ closed, t.Reachable closed ∧ maxInstanceDepth < closed.depth ∧ e = .diverging closed) ∨
      (∃ env q actual, t.Rewritten env q ∧ q.AppliesToNothing env actual ∧
        e = .appliedNonSymbol actual) ∨
      (∃ name, e = .unknownPrecedence name) ∨ (∃ name, e = .tooManyLevels name) ∨
      ∃ cause, e = .definition cause := by
  have hnames := wellNamed_of_inferSorts hsorts
  obtain ⟨σ, hσ, rfl⟩ := exists_sortedBy_of_inferSorts hsorts
  rcases failure_of_expand hnames h with ⟨levels, _, hfailure⟩ | hrest
  · cases hfailure with
    | rewriting hrewritten hsubst =>
      obtain ⟨actual, happlies, rfl⟩ := hrewritten.appliesToNothing hnames hσ hsubst
      exact Or.inr (Or.inl ⟨_, _, actual, hrewritten, happlies, rfl⟩)
    | instantiation hreach htoken hsource =>
      rcases exists_rule_of_reachable hnames hσ hreach with
        ⟨hmem, hargs⟩ | ⟨rule, hr, hhead, hlength⟩
      · obtain ⟨i, hi⟩ := isSome_tokenNamed? hmem
        rw [ExpansionSource.token?, hargs] at htoken
        cases htoken.symm.trans hi
      · obtain ⟨rfl, hdepth⟩ :=
          Expansion.sourceOf_eq_error hnames hσ hr hhead hlength hsource
        exact Or.inl ⟨_, hreach, hdepth, rfl⟩
    | precedence hlevel => exact Or.inr (Or.inr (Or.inl ⟨_, rfl⟩))
  · exact Or.inr (Or.inr (Or.inr hrest))

/-- Expansion applies names only.  When the elements of a branch of a well-sorted template are
rewritten, a formal parameter that is applied to arguments is bound to a name; an element cannot be
rewritten if and only if a formal parameter that is bound to an application is applied to no
arguments in it.  Nothing else makes an expansion fail because something that is not a name is
applied. -/
theorem expand_applies_names (hsorts : t.inferSorts = .ok sorts) :
    (∀ env q, t.Rewritten env q →
      (∀ head args actual, .app head args ∈ q.parts → env.lookup head = some actual → args ≠ [] →
        ∃ name, actual = .var name) ∧
      ((∃ e, q.subst env = .error e) ↔ ∃ actual, q.AppliesToNothing env actual)) ∧
    (∀ actual, (t.expand sorts).result = .error (.appliedNonSymbol actual) →
      ∃ env q, t.Rewritten env q ∧ q.AppliesToNothing env actual) ∧
    ((∀ rule ∈ t.rules, ∀ branch ∈ rule.branches, ∀ q ∈ branch.elements, ∀ head ∈ rule.formals,
        .app head [] ∉ q.parts) →
      ∀ actual, (t.expand sorts).result ≠ .error (.appliedNonSymbol actual)) := by
  have hnames := wellNamed_of_inferSorts hsorts
  obtain ⟨σ, hσ, rfl⟩ := exists_sortedBy_of_inferSorts hsorts
  have hcause : ∀ actual, (t.expand (t.sortsBy σ)).result = .error (.appliedNonSymbol actual) →
      ∃ env q, t.Rewritten env q ∧ q.AppliesToNothing env actual := by
    intro actual h
    rcases error_of_expand hsorts h with
      ⟨_, _, _, he⟩ | ⟨env, q, _, hrewritten, happlies, he⟩ | ⟨_, he⟩ | ⟨_, he⟩ | ⟨_, he⟩ <;>
      cases he
    exact ⟨env, q, hrewritten, happlies⟩
  refine ⟨fun env q h => ⟨fun head args actual hpart hlookup hargs => ?_,
    h.subst_fails_iff hnames hσ⟩, hcause, fun hnone actual h => ?_⟩
  · exact ⟨_, h.eq_var hnames hσ hpart hlookup hargs⟩
  · obtain ⟨env, q, ⟨closed, _, rule, hr, _, _, rfl, branch, hbranch, hq⟩, head, f, args, hpart,
      hlookup, _⟩ := hcause actual h
    have hmem := List.mem_reverse.mp (Parameter.mem_of_lookup hlookup)
    exact hnone rule hr branch hbranch q hq head (List.of_mem_zip hmem).1 hpart

/-- The rule that brackets a list can be reached, with the rule `list` as its parameter. -/
theorem reachable_bracketedList : bracketedList.Reachable (.app "wrap" [.var "list", .var "a"]) :=
  ⟨"main", rfl, .single ⟨_, ⟨_, List.mem_of_getElem? (i := 0) rfl, _,
    List.mem_of_getElem? (i := 0) rfl, rfl, rfl, rfl⟩, List.mem_cons_self⟩⟩

theorem expand_applies_names_bracketedList :
    bracketedList.inferSorts = .ok bracketedListSorts ∧
      (∃ env, bracketedList.Rewritten env (.app "F" [.var "X"]) ∧
        env.lookup "F" = some (.var "list") ∧
        ¬ (∃ e, (Parameter.app "F" [.var "X"]).subst env = .error e)) ∧
      ∀ actual, (bracketedList.expand bracketedListSorts).result ≠
        .error (.appliedNonSymbol actual) := by
  have hsorts : bracketedList.inferSorts = .ok bracketedListSorts :=
    eq_ok_of_toOption_eq_some (by decide +kernel)
  obtain ⟨hnames, _, hnever⟩ := expand_applies_names hsorts
  have hrewritten : bracketedList.Rewritten
      (Bindings.ofLists ["F", "X"] [.var "list", .var "a"]) (.app "F" [.var "X"]) :=
    ⟨_, reachable_bracketedList, _, List.mem_of_getElem? (i := 2) rfl, rfl, rfl, rfl, _,
      List.mem_of_getElem? (i := 0) rfl, List.mem_of_getElem? (i := 1) rfl⟩
  refine ⟨hsorts, ⟨_, hrewritten, by decide, fun hfails => ?_⟩, hnever (by decide)⟩
  obtain ⟨actual, head, f, args, hpart, _⟩ := (hnames _ _ hrewritten).2.mp hfails
  simp [Parameter.parts, Parameter.partsAll] at hpart

/-- The formal parameter of `f` is applied to no arguments, and bound to an application of `g`. -/
def emptyApplication : Template where
  tokens := ["A"]
  levels := []
  rules :=
    [Samples.plainRule "main" [[.app "f" [.app "g" [.var "A"]]]],
      ⟨"f", ["X"], [Samples.branch [.app "X" []]]⟩,
      ⟨"g", ["Y"], [Samples.branch [.var "Y"]]⟩]
  start := some "main"

/-- The sorts of the rules of `emptyApplication`. -/
def emptyApplicationSorts : RuleSorts :=
  [("main", .star), ("f", .arrow [.star]), ("g", .arrow [.star])]

/-- Sorts are inferred, but the template cannot be expanded. -/
theorem expand_emptyApplication :
    emptyApplication.inferSorts = .ok emptyApplicationSorts ∧
      (emptyApplication.expand emptyApplicationSorts).result =
        .error (.appliedNonSymbol (.app "g" [.var "A"])) := by
  let src : ExpansionSource := ⟨emptyApplication, emptyApplicationSorts, ∅⟩
  refine ⟨eq_ok_of_toOption_eq_some (by decide +kernel), ?_⟩
  have hbegun : Expansion.empty.instantiate src (.var "main") =
      (.ok 0, (Expansion.empty.instantiate src (.var "main")).2) :=
    Prod.ext (eq_ok_of_toOption_eq_some (by decide +kernel)) rfl
  have hall := Expansion.expandAll_eq_expandUpTo 3 rfl hbegun (by decide +kernel)
  have happlied : (match (Expansion.expandUpTo src 3
      (Expansion.empty.instantiate src (.var "main")).2).1 with
      | .error (.appliedNonSymbol actual) => some actual
      | _ => none) = some (.app "g" [.var "A"]) := by decide +kernel
  split at happlied
  · rename_i actual hfails
    cases happlied
    exact expand_eq_error rfl (hall.trans (Prod.ext hfails rfl))
  · cases happlied

/-- A closed application of a rule, to as many arguments as the rule has formal parameters and its
sort takes. -/
def Applies (t : Template) (sorts : RuleSorts) (closed : Parameter) : Prop :=
  ∃ rule ∈ t.rules, ∃ s, closed.head = rule.name ∧ sorts.lookup closed.head = some s ∧
    s.arity = closed.args.length ∧ rule.formals.length = closed.args.length

/-- The instances of a well-sorted template are well-formed.  Its expansion does not fail because of
names, sorts or numbers of arguments, nor because a number waits that no instance has; each instance
is an application of a rule, and so is whatever can be reached and is not a token, also if it is
refused since it is nested too deep. -/
theorem wellSorted_instances (hsorts : t.inferSorts = .ok sorts) :
    (∀ e, (t.expand sorts).result = .error e → (∀ name, e ≠ .missingSort name) ∧
      (∀ name, e ≠ .notARule name) ∧ (∀ closed, e ≠ .wrongArgumentCount closed) ∧
      (∀ i, e ≠ .unknownInstance i) ∧ e ≠ .noStartSymbol) ∧
    (∀ levels, ∀ inst ∈ (Expansion.expandAll ⟨t, sorts, levels⟩).2.instances,
      t.Reachable inst.closed ∧ ¬ t.IsToken inst.closed ∧ t.Applies sorts inst.closed) ∧
    ∀ closed, t.Reachable closed → ¬ t.IsToken closed → t.Applies sorts closed := by
  have hnames := wellNamed_of_inferSorts hsorts
  have happlies : ∀ closed, t.Reachable closed → ¬ t.IsToken closed → t.Applies sorts closed := by
    intro closed hreach hnot
    obtain ⟨σ, hσ, rfl⟩ := exists_sortedBy_of_inferSorts hsorts
    rcases exists_rule_of_reachable hnames hσ hreach with
      ⟨hmem, hargs⟩ | ⟨rule, hr, hhead, hlength⟩
    · exact absurd ⟨hargs, hmem⟩ hnot
    · obtain ⟨s, hlookup, harity⟩ := hnames.lookup_sortsBy hσ hr
      exact ⟨rule, hr, s, hhead, hhead ▸ hlookup, harity.trans hlength.symm, hlength.symm⟩
  refine ⟨fun e h => ?_, fun levels inst hinst => ?_, happlies⟩
  · rcases error_of_expand hsorts h with
      ⟨_, _, _, rfl⟩ | ⟨_, _, _, _, _, rfl⟩ | ⟨_, rfl⟩ | ⟨_, rfl⟩ | ⟨_, rfl⟩ <;>
    exact ⟨nofun, nofun, nofun, nofun, nofun⟩
  · have hreach := Expansion.reachable_of_mem_instances hnames hinst
    have hnot : ¬ t.IsToken inst.closed := fun htoken =>
      Expansion.head_not_mem_of_mem_instances hnames hinst htoken.2
    exact ⟨hreach, hnot, happlies _ hreach hnot⟩

theorem wellSorted_instances_bracketedList :
    bracketedList.inferSorts = .ok bracketedListSorts ∧
      bracketedList.Reachable (.app "wrap" [.var "list", .var "a"]) ∧
      (∃ rule ∈ bracketedList.rules, rule.name = "wrap" ∧ rule.formals.length = 2 ∧
        ∃ s, bracketedListSorts.lookup "wrap" = some s ∧ s.arity = 2) ∧
      (∀ name, (bracketedList.expand bracketedListSorts).result ≠ .error (.missingSort name)) ∧
      ∀ i, (bracketedList.expand bracketedListSorts).result ≠ .error (.unknownInstance i) := by
  have hsorts : bracketedList.inferSorts = .ok bracketedListSorts :=
    eq_ok_of_toOption_eq_some (by decide +kernel)
  obtain ⟨herrors, _, hinstances⟩ := wellSorted_instances hsorts
  refine ⟨hsorts, reachable_bracketedList, ?_, fun name h => (herrors _ h).1 name rfl,
    fun i h => (herrors _ h).2.2.2.1 i rfl⟩
  obtain ⟨rule, hr, s, hhead, hs, hsort, hcount⟩ :=
    hinstances _ reachable_bracketedList fun htoken => List.cons_ne_nil _ _ htoken.1
  exact ⟨rule, hr, hhead.symm, hcount, s, hs, hsort⟩

end Template
end ParserGen
