import ParserGen.Proofs.Repetitions
import ParserGen.Proofs.Template.Instances

/-!
# The order of the instances

Instances are numbered as they are first mentioned, and they are expanded in the order of their
numbers.  So their order is that of a breadth-first search of what can be reached from the start
symbol, in which an application leads to the elements of its branches.  There is one such order.

Main results:

- Theorem `Template.BreadthFirst.unique`: closed applications have one breadth-first order.
- Theorem `Expansion.applications_expandInstance`: a turn adds what the branches of its instance
  mention, in this order and without what has been mentioned before.
- Theorem `Expansion.breadthFirst_of_expandAll`: the instances are in breadth-first order.
-/

namespace ParserGen

/-- The elements of a branch of a rule that is applied to actual parameters. -/
def TemplateRule.elementsFor (rule : TemplateRule) (actuals : List Parameter) (branch : Branch) :
    List Parameter :=
  branch.elements.map (Parameter.instantiate (rule.standsFor actuals))

namespace Template

/-- The closed applications in a list that are not tokens. -/
def withoutTokens (t : Template) (ps : List Parameter) : List Parameter := ps.filter (¬ t.IsToken ·)

/-- What a closed application becomes, branch by branch. -/
def unfoldings (t : Template) (p : Parameter) : List (List Parameter) :=
  ((t.ruleNamed? p.head).map fun (rule, _) => rule.branches.map (rule.elementsFor p.args)).getD []

/-- The closed applications that a closed application mentions, branch by branch and element by
element. -/
def mentionedBy (t : Template) (p : Parameter) : List Parameter :=
  (t.unfoldings p).flatMap t.withoutTokens

/-- What is mentioned when closed applications are gone through, the start symbol to begin with. -/
def mentionedFrom (t : Template) (start : String) (apps : List Parameter) : List Parameter :=
  .var start :: apps.flatMap t.mentionedBy

/-- What can be reached from the start symbol, tokens apart, in the order of a breadth-first search:
if it is gone through in this order, it is first mentioned in this order. -/
structure BreadthFirst (t : Template) (start : String) (apps : List Parameter) : Prop where
  order : apps = (t.mentionedFrom start apps).eraseDups
  mem_iff : ∀ p, p ∈ apps ↔ t.Reachable p ∧ ¬ t.IsToken p

variable {t : Template} {start : String} {apps apps' ps qs : List Parameter} {p q : Parameter}

theorem mem_withoutTokens : p ∈ t.withoutTokens ps ↔ p ∈ ps ∧ ¬ t.IsToken p := by
  rw [withoutTokens, List.mem_filter, decide_eq_true_iff]

theorem withoutTokens_append :
    t.withoutTokens (ps ++ qs) = t.withoutTokens ps ++ t.withoutTokens qs :=
  List.filter_append ps qs

theorem mentionedFrom_append :
    t.mentionedFrom start (ps ++ qs) = t.mentionedFrom start ps ++ qs.flatMap t.mentionedBy := by
  rw [mentionedFrom, List.flatMap_append]
  rfl

/-! ## There is one breadth-first order -/

/-- What unfolds is no token, as rules and tokens have different names. -/
theorem WellNamed.not_isToken_of_unfolds (h : t.WellNamed) (hunfolds : t.Unfolds p ps) :
    ¬ t.IsToken p := by
  obtain ⟨rule, hr, _, _, hhead, _⟩ := hunfolds
  exact fun htoken => h.not_mem_tokens hr (hhead ▸ htoken.2)

/-- What a closed application mentions is listed, tokens apart. -/
theorem WellNamed.mem_mentionedBy (h : t.WellNamed) (hmentions : t.Mentions p q)
    (hq : ¬ t.IsToken q) : q ∈ t.mentionedBy p := by
  obtain ⟨_, ⟨rule, hr, branch, hbranch, hhead, _, rfl⟩, hmem⟩ := hmentions
  obtain ⟨_, hnamed⟩ := h.exists_ruleNamed? hr
  refine List.mem_flatMap.mpr ⟨rule.elementsFor p.args branch, ?_, mem_withoutTokens.mpr ⟨hmem, hq⟩⟩
  rw [unfoldings, hhead, hnamed]
  exact List.mem_map_of_mem hbranch

namespace BreadthFirst

/-- What the first applications mention comes before everything else. -/
theorem eq_append (h : t.BreadthFirst start apps) (k : Nat) :
    ∃ more, apps = (t.mentionedFrom start (apps.take k)).eraseDups ++ more ∧
      ∀ p ∈ more, p ∉ (t.mentionedFrom start (apps.take k)).eraseDups := by
  have hsplit := h.order
  rw [← List.take_append_drop k apps, mentionedFrom_append, List.eraseDups_append,
    List.take_append_drop] at hsplit
  refine ⟨_, hsplit, fun p hp => ?_⟩
  rw [List.mem_eraseDups, List.removeAll, List.mem_filter] at hp
  simpa using hp.2

/-- If nothing else is mentioned by what comes first, there is nothing else. -/
theorem mem_of_length_le (hnames : t.WellNamed) (hstart : t.startName? = some start)
    (h : t.BreadthFirst start apps) {k : Nat}
    (hle : (t.mentionedFrom start (apps.take k)).eraseDups.length ≤ k) (hp : p ∈ apps) :
    p ∈ (t.mentionedFrom start (apps.take k)).eraseDups := by
  obtain ⟨hreach, hnot⟩ := (h.mem_iff p).mp hp
  obtain ⟨name, hname, hpath⟩ := hreach
  cases hstart.symm.trans hname
  induction hpath with
  | refl => exact List.mem_eraseDups.mpr List.mem_cons_self
  | @tail q r hpath hmentions ih =>
    obtain ⟨_, hunfolds, _⟩ := id hmentions
    have hq := hnames.not_isToken_of_unfolds hunfolds
    have hmem := ih ((h.mem_iff q).mpr ⟨⟨start, hstart, hpath⟩, hq⟩) hq
    obtain ⟨more, hsplit, _⟩ := h.eq_append k
    have hfirst : q ∈ apps.take k :=
      (List.prefix_take_iff.mpr ⟨⟨more, hsplit.symm⟩, hle⟩).subset hmem
    refine List.mem_eraseDups.mpr (List.mem_cons_of_mem _ (List.mem_flatMap.mpr ⟨q, hfirst, ?_⟩))
    exact hnames.mem_mentionedBy hmentions hnot

/-- The first applications determine the next one. -/
theorem take_succ (hnames : t.WellNamed) (hstart : t.startName? = some start)
    (h : t.BreadthFirst start apps) (k : Nat) :
    apps.take (k + 1) = (t.mentionedFrom start (apps.take k)).eraseDups.take (k + 1) := by
  obtain ⟨more, hsplit, hmore⟩ := h.eq_append k
  by_cases hlt : k < (t.mentionedFrom start (apps.take k)).eraseDups.length
  · exact (congrArg (List.take (k + 1)) hsplit).trans (List.take_append_of_le_length hlt)
  · have hnil : more = [] := by
      refine List.eq_nil_iff_forall_not_mem.mpr fun p hp => hmore p hp ?_
      refine h.mem_of_length_le hnames hstart (Nat.le_of_not_lt hlt) ?_
      rw [hsplit]
      exact List.mem_append_right _ hp
    rw [hnil, List.append_nil] at hsplit
    exact congrArg (List.take (k + 1)) hsplit

/-- Closed applications have one breadth-first order. -/
theorem unique (hnames : t.WellNamed) (hstart : t.startName? = some start)
    (h : t.BreadthFirst start apps) (h' : t.BreadthFirst start apps') : apps = apps' := by
  have htake : ∀ k, apps.take k = apps'.take k := by
    intro k
    induction k with
    | zero => rfl
    | succ k ih => rw [h.take_succ hnames hstart, h'.take_succ hnames hstart, ih]
  have hall := htake (max apps.length apps'.length)
  rwa [List.take_of_length_le (Nat.le_max_left _ _),
    List.take_of_length_le (Nat.le_max_right _ _)] at hall

end BreadthFirst
end Template

/-! ## The instances of an expansion -/

namespace Expansion

variable {src : ExpansionSource} {x y : Expansion} {closed : Parameter} {s : Symbol}
  {env : Bindings} {owner i next : Nat} {inst : RuleInstance} {ms : List Parameter}

/-- The closed applications of the instances, in the order of their numbers. -/
def applications (x : Expansion) : List Parameter := x.instances.toList.map (·.closed)

/-- The applications are those of the instances, in their order. -/
theorem getElem?_applications (x : Expansion) (i : Nat) :
    x.applications[i]? = x.instances[i]?.map (·.closed) := by
  rw [applications, List.getElem?_map, Array.getElem?_toList]

theorem length_applications (x : Expansion) : x.applications.length = x.instances.size := by
  rw [applications, List.length_map, Array.length_toList]

/-- A closed application is not found exactly if it has no instance. -/
theorem find?_eq_none_iff : x.find? closed = none ↔ closed ∉ x.applications := by
  rw [find?, Array.findIdx?_eq_none_iff]
  simp [applications]

/-- A closed application that is found has an instance. -/
theorem mem_applications_of_find? (h : x.find? closed = some i) : closed ∈ x.applications := by
  by_contra hnot
  rw [find?_eq_none_iff.mpr hnot] at h
  cases h

/-- Old instances come before new ones. -/
theorem Grows.prefix (h : x.Grows y) : x.instances.toList <+: y.instances.toList := by
  refine List.prefix_iff_getElem?.mpr fun i hi => ?_
  rw [Array.getElem?_toList, Array.getElem_toList]
  exact h.instances (Array.getElem?_eq_getElem (by simpa using hi))

/-- The instance that has its turn comes after those that have had theirs. -/
theorem Grows.take_succ (h : x.Grows y) (hinst : x.instances[next]? = some inst) :
    y.instances.toList.take (next + 1) = x.instances.toList.take next ++ [inst] := by
  obtain ⟨more, hmore⟩ := h.prefix
  have hlt : next < x.instances.toList.length := by
    simpa using (Array.getElem?_eq_some_iff.mp hinst).1
  rw [← hmore, List.take_append_of_le_length hlt, List.take_add_one, Array.getElem?_toList, hinst]
  rfl

/-- What is found among the tokens is a token. -/
theorem isToken_of_token? (h : src.token? closed = some i) : src.template.IsToken closed := by
  by_contra hnot
  rw [ExpansionSource.token?_eq_none_iff.mpr hnot] at h
  cases h

/-! ## What a turn adds -/

/-- An application gets an instance when it is first mentioned. -/
theorem applications_instantiate (h : x.applications = ms.eraseDups)
    (hrun : x.instantiate src closed = (.ok i, y)) :
    y.applications = (ms ++ [closed]).eraseDups := by
  rcases instantiate_cases hrun with ⟨hfind, rfl⟩ | ⟨hnew, source, _, _, rfl⟩
  · have hmem : closed ∈ ms := List.mem_eraseDups.mp (h ▸ mem_applications_of_find? hfind)
    rw [eraseDups_concat_of_mem hmem, h]
  · have hmem : closed ∉ ms := fun hmem =>
      find?_eq_none_iff.mp hnew (h ▸ List.mem_eraseDups.mpr hmem)
    rw [applications] at h
    simp [applications, h, eraseDups_concat_of_not_mem hmem]

/-- Resolving a closed application adds it unless it is a token or has been added before. -/
theorem applications_resolve (h : x.applications = ms.eraseDups)
    (hrun : x.resolve src closed = (.ok s, y)) :
    y.applications = (ms ++ src.template.withoutTokens [closed]).eraseDups := by
  rcases resolve_cases hrun with ⟨i, htoken, _, rfl⟩ | ⟨htoken, i, hinstantiate, _⟩
  · have hnot : src.template.IsToken closed := isToken_of_token? htoken
    simp [h, Template.withoutTokens, hnot]
  · have hnot : ¬ src.template.IsToken closed := ExpansionSource.token?_eq_none_iff.mp htoken
    simpa [Template.withoutTokens, hnot] using applications_instantiate h hinstantiate

/-- Resolving the elements of a branch adds them in their order, each of them once. -/
theorem applications_resolveAll {ps : List Parameter} {right : List Symbol}
    (h : x.applications = ms.eraseDups) (hrun : resolveAll src env x ps = (.ok right, y)) :
    y.applications = (ms ++ src.template.withoutTokens
      (ps.map (Parameter.instantiate (Parameter.standsIn env)))).eraseDups := by
  induction ps generalizing x right ms with
  | nil =>
    cases hrun
    simpa [Template.withoutTokens] using h
  | cons p rest ih =>
    obtain ⟨x', _, _, hresolve, hrest, _⟩ := exists_of_resolveAll_cons hrun
    rw [ih (applications_resolve h hresolve) hrest, List.append_assoc,
      ← Template.withoutTokens_append]
    rfl

/-- Adding a rule adds no instance. -/
theorem applications_addRule (x : Expansion) (closed : Parameter) (rule : InstanceRule) :
    (x.addRule closed rule).applications = x.applications := by
  rw [applications, (addRule_spec x closed rule).2.1, applications]

/-- Expanding branches adds what their elements mention, in their order. -/
theorem applications_expandBranches {branches : List (Branch × Nat)}
    (h : x.applications = ms.eraseDups)
    (hrun : expandBranches src owner inst env x branches = (.ok (), y)) :
    y.applications = (ms ++ (branches.map Prod.fst).flatMap fun branch =>
      src.template.withoutTokens (Elements env branch)).eraseDups := by
  induction branches generalizing x ms with
  | nil =>
    cases hrun
    simpa using h
  | cons entry rest ih =>
    obtain ⟨branch, b⟩ := entry
    obtain ⟨x', _, _, hresolve, _, hrest⟩ := exists_of_expandBranches_cons hrun
    have hresolved := applications_resolveAll h hresolve
    rw [← applications_addRule] at hresolved
    rw [ih hresolved hrest, List.append_assoc]
    rfl

/-- The branches of an instance and their elements are those of the rule that its head names. -/
theorem exists_rule_of_instance (hnames : src.template.WellNamed)
    (h : sourceOf src inst.closed = .ok inst.source) :
    ∃ rule, src.template.ruleNamed? inst.closed.head = some (rule, inst.source) ∧
      src.template.branchesOf inst.source = rule.branches ∧
      Elements (bindings src inst) = rule.elementsFor inst.closed.args := by
  obtain ⟨rule, hnamed, hlength⟩ := ruleNamed?_of_sourceOf h
  obtain ⟨hget, _⟩ := Template.ruleNamed?_eq_some hnamed
  have hstands := hnames.standsIn_ofLists (List.mem_of_getElem? hget) hlength
  refine ⟨rule, hnamed, ?_, funext fun branch => ?_⟩
  · rw [Template.branchesOf, hget]
    rfl
  · rw [Elements, bindings, Template.formalsOf, hget]
    exact congrArg (fun stands => branch.elements.map (Parameter.instantiate stands)) hstands

/-- A turn adds what its instance mentions. -/
theorem applications_expandInstance (hnames : src.template.WellNamed)
    (h : x.applications = ms.eraseDups) (hsource : sourceOf src inst.closed = .ok inst.source)
    (hrun : x.expandInstance src owner inst = (.ok (), y)) :
    y.applications = (ms ++ src.template.mentionedBy inst.closed).eraseDups := by
  have hbranches := applications_expandBranches h hrun
  obtain ⟨rule, hnamed, hrule, helements⟩ := exists_rule_of_instance hnames hsource
  have hmentioned : src.template.mentionedBy inst.closed = rule.branches.flatMap fun branch =>
      src.template.withoutTokens (rule.elementsFor inst.closed.args branch) := by
    rw [Template.mentionedBy, Template.unfoldings, hnamed]
    exact List.flatMap_map _ _ _
  rw [List.zipIdx_map_fst, hrule] at hbranches
  rw [hbranches, hmentioned, ← helements]
  rfl

/-! ## The whole expansion -/

/-- The instances are mentioned in the order of their numbers, by those before `next`. -/
structure Ordered (src : ExpansionSource) (start : String) (x : Expansion) (next : Nat) :
    Prop where
  sound : x.Sound src next
  order : x.applications =
    (src.template.mentionedFrom start (x.applications.take next)).eraseDups

/-- A turn keeps the instances in breadth-first order. -/
theorem Ordered.expandInstance (hnames : src.template.WellNamed) {start : String}
    (h : x.Ordered src start next) (hinst : x.instances[next]? = some inst)
    (hrun : x.expandInstance src next inst = (.ok (), y)) : y.Ordered src start (next + 1) := by
  refine ⟨h.sound.expandInstance hnames hinst hrun, ?_⟩
  have htake : y.applications.take (next + 1) = x.applications.take next ++ [inst.closed] := by
    rw [applications, ← List.map_take, (expandInstance_spec hrun).grows.take_succ hinst,
      List.map_append, List.map_take]
    rfl
  have hsource := (h.sound.source inst (Array.mem_of_getElem? hinst)).2
  rw [htake, Template.mentionedFrom_append, List.flatMap_singleton]
  exact applications_expandInstance hnames h.order hsource hrun

/-- The instances are in breadth-first order. -/
theorem breadthFirst_of_expandAll (hnames : src.template.WellNamed)
    (h : expandAll src = (.ok (), x)) :
    ∃ start, src.template.startName? = some start ∧
      src.template.BreadthFirst start x.applications := by
  have hfinished := finished_of_expandAll hnames h
  obtain ⟨start, hstart, _⟩ := hfinished.start
  obtain ⟨_, _, hordered⟩ := kept_of_expandAll (P := Ordered src start) h
    (fun hname hbegun => by
      cases hstart.symm.trans hname
      have hempty : empty.applications = [].eraseDups := rfl
      exact ⟨sound_begun hnames hname hbegun, applications_instantiate hempty hbegun⟩)
    (fun rest hkept => ⟨hkept.sound.popped rest, hkept.order⟩)
    fun hkept hinst hrun => hkept.expandInstance hnames hinst hrun
  refine ⟨start, hstart, ?_, fun p => ?_⟩
  · have horder := hordered.order
    rwa [List.take_of_length_le (Nat.le_of_eq x.length_applications)] at horder
  · refine Iff.trans ?_ ((hfinished.exists_instance_iff hnames).trans
      (and_congr_right fun _ => ExpansionSource.token?_eq_none_iff))
    simp [applications]

end Expansion
end ParserGen
