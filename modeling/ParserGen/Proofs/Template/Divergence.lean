import Mathlib.Data.Set.Finite.List
import ParserGen.Proofs.Template.Instances
import ParserGen.Samples.Templates

/-!
# Expansions that diverge

Instances invoke other ones, maybe infinitely many.  An expansion ends all the same, since it
refuses closed applications that are nested too deep.  When it ends well, it has an instance for all
that is invoked, so then there are finitely many of them, and none is nested too deep.  All of this
holds of any template with any sorts, also if names are declared twice or not at all: the last of
several rules or formal parameters of one name counts.

Main results:

- Theorem `Template.WellNamed.invoked_iff`: where names are declared once, what is invoked is what
  can be reached.
- Theorem `Expansion.has_of_invoked`: an expansion that ends well has an instance for everything
  that is invoked.
- Theorem `Template.expand_fails_if_diverging`: every expansion ends, and fails if infinitely many
  closed applications are invoked or one that is nested too deep.
-/

namespace ParserGen

/-- What a name stands for in a rule that is applied to actual parameters, if formal parameters may
share names: later ones hide earlier ones. -/
def TemplateRule.standsForLast (rule : TemplateRule) (actuals : List Parameter) (name : String) :
    Parameter :=
  (rule.formals.zip actuals).foldl (fun actual b => if name = b.1 then b.2 else actual) (.var name)

namespace Template

/-- The last rule of a name. -/
def LastRule (t : Template) (name : String) (rule : TemplateRule) : Prop :=
  ∃ before after, t.rules = before ++ rule :: after ∧ rule.name = name ∧
    ∀ other ∈ after, other.name ≠ name

/-- A closed application of a rule has another one among the elements of a branch, after names have
been replaced by what they stand for.  The bare name of a token is not an application. -/
def Invokes (t : Template) (p q : Parameter) : Prop :=
  ∃ rule, t.LastRule p.head rule ∧ p.args.length = rule.formals.length ∧
    ∃ branch ∈ rule.branches, ∃ element ∈ branch.elements,
      q = element.instantiate (rule.standsForLast p.args) ∧ ¬ t.IsToken q

/-- A closed application is invoked when the start symbol is instantiated, or later. -/
def Invoked (t : Template) (p : Parameter) : Prop :=
  ∃ name, t.startName? = some name ∧ Relation.ReflTransGen t.Invokes (.var name) p

/-! ## Names that are declared several times -/

variable {t : Template} {rule : TemplateRule} {name : String} {p q : Parameter}

/-- The bindings of an expansion are looked up from the last one on. -/
theorem standsIn_ofLists_eq (rule : TemplateRule) (actuals : List Parameter) :
    Parameter.standsIn (Bindings.ofLists rule.formals actuals) = rule.standsForLast actuals := by
  have hlookup : ∀ (bindings : Bindings) (name : String) (otherwise : Parameter),
      (bindings.lookup name).getD otherwise =
        bindings.foldr (fun b actual => if name = b.1 then b.2 else actual) otherwise := by
    intro bindings name otherwise
    induction bindings with
    | nil => rfl
    | cons b rest ih =>
      rw [List.lookup_cons, List.foldr_cons, ← ih]
      by_cases hname : name = b.1
      · rw [if_pos hname, beq_iff_eq.mpr hname]
        rfl
      · rw [if_neg hname, beq_eq_false_iff_ne.mpr hname]
  funext name
  rw [Parameter.standsIn, hlookup, Bindings.ofLists, List.foldr_reverse,
    TemplateRule.standsForLast]

/-- The last rule of a name is what the name leads to. -/
theorem LastRule.exists_ruleNamed? (h : t.LastRule name rule) :
    ∃ source, t.ruleNamed? name = some (rule, source) := by
  obtain ⟨before, after, hrules, hname, hlast⟩ := h
  have hnone : (after.zipIdx (before.length + 1)).reverse.find? (fun row => row.1.name == name) =
      none := by
    refine List.find?_eq_none.mpr fun row hrow => ?_
    obtain ⟨_, hmem⟩ := List.mk_mem_zipIdx_iff_le_and_getElem?_sub.mp (List.mem_reverse.mp hrow)
    simpa using hlast row.1 (List.mem_of_getElem? hmem)
  refine ⟨before.length, ?_⟩
  rw [ruleNamed?, hrules, List.zipIdx_append, List.zipIdx_cons, List.reverse_append,
    List.reverse_cons, List.append_assoc, List.find?_append, Nat.zero_add, hnone, Option.none_or]
  simp [hname]

namespace WellNamed

/-- Where no name is declared twice, each rule is the last one of its name. -/
theorem lastRule_iff (h : t.WellNamed) :
    t.LastRule name rule ↔ rule ∈ t.rules ∧ rule.name = name := by
  constructor
  · rintro ⟨before, after, hrules, hname, _⟩
    exact ⟨hrules ▸ List.mem_append_right _ List.mem_cons_self, hname⟩
  · rintro ⟨hr, rfl⟩
    obtain ⟨before, after, hrules⟩ := List.append_of_mem hr
    refine ⟨before, after, hrules, rfl, fun other hother hname => ?_⟩
    have hnodup : t.ruleNames.Nodup := (List.nodup_append.mp h.globals).2.1
    rw [ruleNames, hrules, List.map_append, List.map_cons] at hnodup
    have hrest := (List.nodup_cons.mp (List.nodup_append.mp hnodup).2.1).1
    exact hrest (hname ▸ List.mem_map_of_mem hother)

/-- There an application invokes the applications that it mentions. -/
theorem invokes_iff (h : t.WellNamed) : t.Invokes p q ↔ t.Mentions p q ∧ ¬ t.IsToken q := by
  have hstands : ∀ rule ∈ t.rules, p.args.length = rule.formals.length →
      rule.standsForLast p.args = rule.standsFor p.args := fun rule hr hlength =>
    (standsIn_ofLists_eq rule p.args).symm.trans (h.standsIn_ofLists hr hlength.symm)
  constructor
  · rintro ⟨rule, hrule, hlength, branch, hbranch, element, helement, rfl, hnot⟩
    obtain ⟨hr, hname⟩ := h.lastRule_iff.mp hrule
    rw [hstands rule hr hlength] at hnot ⊢
    exact ⟨⟨_, ⟨rule, hr, branch, hbranch, hname.symm, hlength, rfl⟩,
      List.mem_map_of_mem helement⟩, hnot⟩
  · rintro ⟨⟨_, ⟨rule, hr, branch, hbranch, hhead, hlength, rfl⟩, hmem⟩, hnot⟩
    obtain ⟨element, helement, rfl⟩ := List.mem_map.mp hmem
    refine ⟨rule, h.lastRule_iff.mpr ⟨hr, hhead.symm⟩, hlength, branch, hbranch, element, helement,
      ?_, hnot⟩
    rw [hstands rule hr hlength]

/-- There the applications that are invoked are those that can be reached. -/
theorem invoked_iff (h : t.WellNamed) : t.Invoked p ↔ t.Reachable p ∧ ¬ t.IsToken p := by
  obtain ⟨start, hstart, hname⟩ := h.start
  constructor
  · rintro ⟨name, hname', hpath⟩
    cases hname.symm.trans hname'
    induction hpath with
    | refl =>
      obtain ⟨rule, hr, hrule⟩ := List.mem_map.mp hstart
      exact ⟨⟨start, hname, .refl⟩, fun htoken => h.not_mem_tokens hr (hrule ▸ htoken.2)⟩
    | tail _ hinvokes ih =>
      obtain ⟨hmentions, hnot⟩ := h.invokes_iff.mp hinvokes
      obtain ⟨name, hname', hreach⟩ := ih.1
      exact ⟨⟨name, hname', hreach.tail hmentions⟩, hnot⟩
  · rintro ⟨⟨name, hname', hpath⟩, hnot⟩
    induction hpath with
    | refl => exact ⟨name, hname', .refl⟩
    | tail _ hmentions ih =>
      obtain ⟨_, ⟨rule, hr, _, _, hhead, _⟩, _⟩ := id hmentions
      obtain ⟨_, hname'', hreach⟩ := ih fun htoken => h.not_mem_tokens hr (hhead ▸ htoken.2)
      exact ⟨_, hname'', hreach.tail (h.invokes_iff.mpr ⟨hmentions, hnot⟩)⟩

end WellNamed
end Template

namespace Expansion

variable {src : ExpansionSource} {x y : Expansion} {inst : RuleInstance} {next count : Nat}

/-- There is an instance for a closed application. -/
def Has (x : Expansion) (p : Parameter) : Prop := ∃ inst ∈ x.instances, inst.closed = p

/-- An instance stays while others are added. -/
theorem Grows.has (h : x.Grows y) {p : Parameter} (hp : x.Has p) : y.Has p := by
  obtain ⟨inst, hinst, hclosed⟩ := hp
  obtain ⟨i, hi⟩ := Array.mem_iff_getElem?.mp hinst
  exact ⟨inst, Array.mem_of_getElem? (h.instances hi), hclosed⟩

/-- What is found is an instance. -/
theorem has_of_find? {p : Parameter} {i : Nat} (h : x.find? p = some i) : x.Has p := by
  obtain ⟨inst, hinst, hclosed, _⟩ := find?_eq_some_iff.mp h
  exact ⟨inst, Array.mem_of_getElem? hinst, hclosed⟩

/-- There are instances for what the instances before `next` invoke, and all instances are those of
a rule. -/
structure Closed (src : ExpansionSource) (x : Expansion) (next : Nat) : Prop where
  source : ∀ inst ∈ x.instances, sourceOf src inst.closed = .ok inst.source
  invoked : ∀ i < next, ∀ inst, x.instances[i]? = some inst →
    ∀ q, src.template.Invokes inst.closed q → x.Has q

/-- What an instance invokes is among the elements of its branches. -/
theorem exists_branch_of_invokes {q : Parameter}
    (hsource : sourceOf src inst.closed = .ok inst.source)
    (hinvokes : src.template.Invokes inst.closed q) :
    src.token? q = none ∧ ∃ branch ∈ src.template.branchesOf inst.source,
      q ∈ Elements (bindings src inst) branch := by
  obtain ⟨rule, hrule, _, branch, hbranch, element, helement, rfl, hnot⟩ := hinvokes
  obtain ⟨source, hnamed⟩ := hrule.exists_ruleNamed?
  obtain ⟨rule', hnamed', _⟩ := ruleNamed?_of_sourceOf hsource
  cases hnamed.symm.trans hnamed'
  obtain ⟨hget, _⟩ := Template.ruleNamed?_eq_some hnamed
  refine ⟨ExpansionSource.token?_eq_none_iff.mpr hnot, branch, ?_, ?_⟩
  · rw [Template.branchesOf, hget]
    exact hbranch
  · have hbindings : bindings src inst = Bindings.ofLists rule.formals inst.closed.args := by
      rw [bindings, Template.formalsOf, hget]
      rfl
    rw [Elements, hbindings, Template.standsIn_ofLists_eq]
    exact List.mem_map_of_mem helement

/-- Expanding an instance makes instances for what it invokes. -/
theorem Closed.expandInstance (h : x.Closed src next) (hinst : x.instances[next]? = some inst)
    (hrun : x.expandInstance src next inst = (.ok (), y)) : y.Closed src (next + 1) := by
  have hcovers := expandInstance_spec hrun
  constructor
  · intro other hother
    rcases hcovers.instances other hother with hold | ⟨_, hsource, _⟩
    · exact h.source other hold
    · exact hsource
  · intro i hi other hother q hinvokes
    rcases hcovers.grows.instance_cases hinst hi hother with ⟨hlt, hold⟩ | ⟨rfl, rfl⟩
    · exact hcovers.grows.has (h.invoked i hlt other hold q hinvokes)
    · have hsource := h.source other (Array.mem_of_getElem? hinst)
      obtain ⟨htoken, branch, hbranch, hmem⟩ := exists_branch_of_invokes hsource hinvokes
      obtain ⟨b, hb⟩ := List.mem_iff_getElem?.mp hbranch
      obtain ⟨r, _, _, hright⟩ :=
        hcovers.complete (branch, b) (List.mem_zipIdx_iff_getElem?.mpr hb)
      obtain ⟨s, hs⟩ := hright.exists_symbol hmem
      obtain ⟨j, hj, _⟩ := find?_of_not_token htoken hs
      exact has_of_find? hj

/-- An expansion that ends well has instances for all that is invoked, the bare name of the start
symbol to begin with. -/
theorem closed_of_expandAll (h : expandAll src = (.ok (), x)) :
    x.Bounded src.template x.instances.size ∧ x.Closed src x.instances.size ∧
      ∃ name, src.template.startName? = some name ∧ x.Has (.var name) := by
  obtain ⟨hbounded, ⟨name, hstart, hfind⟩, hclosed⟩ :=
    kept_of_expandAll (P := Closed src) h
      (fun _ hbegun => by
        obtain ⟨_, _, source, hsource, hinstances⟩ := instances_begun hbegun
        refine ⟨fun inst hinst => ?_, fun i hi => absurd hi (Nat.not_lt_zero i)⟩
        rw [hinstances, Array.mem_singleton] at hinst
        exact hinst ▸ hsource)
      (fun _ hkept => ⟨hkept.source, hkept.invoked⟩)
      fun hkept hinst hrun => hkept.expandInstance hinst hrun
  exact ⟨hbounded, hclosed, name, hstart, has_of_find? hfind⟩

/-- What is invoked has an instance in an expansion that ends well. -/
theorem has_of_invoked (h : expandAll src = (.ok (), x)) {p : Parameter}
    (hp : src.template.Invoked p) : x.Has p := by
  obtain ⟨_, hclosed, name, hstart, hhas⟩ := closed_of_expandAll h
  obtain ⟨name', hstart', hreach⟩ := hp
  cases hstart.symm.trans hstart'
  induction hreach with
  | refl => exact hhas
  | tail _ hinvokes ih =>
    obtain ⟨inst, hinst, rfl⟩ := ih
    obtain ⟨i, hi⟩ := Array.mem_iff_getElem?.mp hinst
    exact hclosed.invoked i (Array.getElem?_eq_some_iff.mp hi).1 inst hi _ hinvokes

end Expansion

namespace Template

variable {t : Template} {sorts : RuleSorts} {g : Grammar}

/-- If a template is expanded, finitely many closed applications are invoked. -/
theorem finite_invoked (h : (t.expand sorts).result = .ok g) : {p | t.Invoked p}.Finite := by
  obtain ⟨levels, x, _, hx, _⟩ := expand_eq_ok_iff.mp h
  refine (x.instances.toList.map (·.closed)).finite_toSet.subset fun p hp => ?_
  obtain ⟨inst, hinst, hclosed⟩ := Expansion.has_of_invoked hx hp
  exact List.mem_map.mpr ⟨inst, Array.mem_toList_iff.mpr hinst, hclosed⟩

/-- If a template is expanded, what is invoked is not nested too deep. -/
theorem depth_le_of_invoked (h : (t.expand sorts).result = .ok g) {p : Parameter}
    (hp : t.Invoked p) : p.depth ≤ maxInstanceDepth := by
  obtain ⟨levels, x, _, hx, _⟩ := expand_eq_ok_iff.mp h
  obtain ⟨inst, hinst, rfl⟩ := Expansion.has_of_invoked hx hp
  exact (Expansion.closed_of_expandAll hx).1.shallow inst hinst

/-- The expansion of any template with any sorts ends after finitely many turns, and it fails if
infinitely many closed applications are invoked or one that is nested too deep. -/
theorem expand_fails_if_diverging (t : Template) (sorts : RuleSorts) :
    (∀ levels, ∃ count ≤ (Parameter.upTo t.vocabulary maxInstanceDepth).length,
      Expansion.Runs ⟨t, sorts, levels⟩ (List.range count)
        (Expansion.expandAll ⟨t, sorts, levels⟩)) ∧
    ({p | t.Invoked p}.Infinite ∨ (∃ p, t.Invoked p ∧ maxInstanceDepth < p.depth) →
      ∃ e, (t.expand sorts).result = .error e) := by
  refine ⟨fun levels => Expansion.exists_runs ⟨t, sorts, levels⟩, fun hdiverging => ?_⟩
  cases hresult : (t.expand sorts).result with
  | error e => exact ⟨e, rfl⟩
  | ok g =>
    exfalso
    rcases hdiverging with hinfinite | ⟨p, hp, hdepth⟩
    · exact hinfinite (finite_invoked hresult)
    · exact Nat.not_lt.mpr (depth_le_of_invoked hresult hp) hdepth

/-- A rule that applies itself to one more application each time. -/
def growing : Template where
  tokens := ["a"]
  levels := []
  rules :=
    [Samples.plainRule "main" [[.app "grow" [.var "a"]]],
      ⟨"grow", ["X"], [Samples.branch [.var "X", .app "grow" [.app "wrap" [.var "X"]]]]⟩,
      ⟨"wrap", ["X"], [Samples.branch [.var "X"]]⟩]
  start := some "main"

/-- The token of `growing` with so many applications around it. -/
def wrapped : Nat → Parameter
  | 0 => .var "a"
  | n + 1 => .app "wrap" [wrapped n]

/-- Wrapping once more gives something new. -/
theorem wrapped_injective : Function.Injective wrapped := by
  intro m n h
  induction m generalizing n with
  | zero =>
    cases n with
    | zero => rfl
    | succ n => cases h
  | succ m ih =>
    cases n with
    | zero => cases h
    | succ n =>
      rw [wrapped, wrapped, Parameter.app.injEq, List.cons.injEq] at h
      rw [ih h.2.1]

/-- The growing template has one rule. -/
theorem lastRule_growing :
    growing.LastRule "grow"
      ⟨"grow", ["X"], [Samples.branch [.var "X", .app "grow" [.app "wrap" [.var "X"]]]]⟩ :=
  ⟨[_], _, rfl, rfl, by decide⟩

/-- The growing template invokes its rule with more and more wrappings. -/
theorem invoked_growing (n : Nat) : growing.Invoked (.app "grow" [wrapped n]) := by
  induction n with
  | zero =>
    exact ⟨"main", rfl, .single ⟨_, ⟨[], _, rfl, rfl, by decide⟩, rfl, _, List.mem_cons_self, _,
      List.mem_cons_self, rfl, not_and_of_not_left _ (List.cons_ne_nil _ _)⟩⟩
  | succ n ih =>
    obtain ⟨name, hstart, hreach⟩ := ih
    exact ⟨name, hstart, hreach.tail ⟨_, lastRule_growing, rfl, _, List.mem_cons_self, _,
      List.mem_cons_of_mem _ List.mem_cons_self, rfl,
      not_and_of_not_left _ (List.cons_ne_nil _ _)⟩⟩

theorem expand_fails_if_diverging_growing :
    {p | growing.Invoked p}.Infinite ∧
      ∃ sorts, growing.inferSorts = .ok sorts ∧ ∃ e, (growing.expand sorts).result = .error e := by
  have hinfinite : {p | growing.Invoked p}.Infinite := by
    refine Set.infinite_of_injective_forall_mem (f := fun n => .app "grow" [wrapped n])
      (fun m n h => wrapped_injective ?_) invoked_growing
    rw [Parameter.app.injEq, List.cons.injEq] at h
    exact h.2.1
  have hsorted : growing.inferSorts.toOption.isSome = true := by decide +kernel
  obtain ⟨sorts, hsorts⟩ := Option.isSome_iff_exists.mp hsorted
  exact ⟨hinfinite, sorts, eq_ok_of_toOption_eq_some hsorts,
    (expand_fails_if_diverging growing sorts).2 (Or.inl hinfinite)⟩

end Template
end ParserGen
