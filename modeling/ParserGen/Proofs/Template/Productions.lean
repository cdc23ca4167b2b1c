import ParserGen.Proofs.Grammar.WellFormed
import ParserGen.Proofs.Template.BreadthFirst
import ParserGen.Proofs.Template.ExpandedLanguage

/-!
# The productions of an expanded grammar

An expansion adds the rules of its instances turn by turn, and puts them in the order of the
template at the end: by rule, by branch and by instance.  What the expanded grammar declares can so
be read off the template and the breadth-first order of its instances.

Main results:

- Theorem `Template.getElem?_of_precedences`: a name has the precedence of the first level that
  lists it.
- Theorem `Expansion.rules_expandBranches`: an instance gets a rule for each branch, apart from
  those that repeat a right-hand side.
- Theorem `Expansion.productions_eq`: the rules in the order of the template are its productions.
- Theorem `Template.expand_lists_instances`: what the expanded grammar declares, in which order.
-/

namespace ParserGen

/-! ## The productions of a template -/

namespace Template

variable {t : Template} {apps : List Parameter} {name : String}

/-- The symbol of a closed application: the tokens are numbered from one in the order of the
template, and other applications in the order of `apps`. -/
def symbolIn (t : Template) (apps : List Parameter) (p : Parameter) : Symbol :=
  if t.IsToken p then .terminal (t.tokens.idxOf p.head + 1) else .nonterminal (apps.idxOf p + 1)

/-- The right-hand side that a branch of a rule has for a closed application of the rule. -/
def rightIn (t : Template) (apps : List Parameter) (rule : TemplateRule) (p : Parameter)
    (branch : Branch) : List Symbol :=
  (rule.elementsFor p.args branch).map (t.symbolIn apps)

/-- The precedence of a name: that of the first level that lists it. -/
def precedenceOf? (t : Template) (name : String) : Option Precedence :=
  (t.levels.zipIdx.find? fun row => row.1.names.contains name).map fun row => ⟨row.2, row.1.assoc⟩

/-- The production that a branch of a rule has for a closed application of the rule, unless an
earlier branch has the same right-hand side.  The branch and the application come with their
numbers. -/
def production? (t : Template) (apps : List Parameter) (rule : TemplateRule) (row : Branch × Nat)
    (entry : Parameter × Nat) : Option (Nat × List Symbol × Option Precedence) :=
  if entry.1.head = rule.name ∧ t.rightIn apps rule entry.1 row.1 ∉
      (rule.branches.take row.2).map (t.rightIn apps rule entry.1) then
    some (entry.2 + 1, t.rightIn apps rule entry.1 row.1, row.1.precedence.bind t.precedenceOf?)
  else none

/-- The productions for the closed applications `apps`, by rule, by branch and by application. -/
def productions (t : Template) (apps : List Parameter) :
    List (Nat × List Symbol × Option Precedence) :=
  t.rules.flatMap fun rule =>
    rule.branches.zipIdx.flatMap fun row => apps.zipIdx.filterMap (t.production? apps rule row)

/-! ## Precedence levels -/

theorem getElem?_foldl_insertIfNew (table : Std.TreeMap String Precedence) (names : List String)
    (p : Precedence) : (names.foldl (·.insertIfNew · p) table)[name]? =
      table[name]?.or (if names.contains name then some p else none) := by
  induction names generalizing table with
  | nil => simp
  | cons first rest ih =>
    rw [List.foldl_cons, ih, Std.TreeMap.getElem?_insertIfNew]
    by_cases hname : first = name
    · subst hname
      rcases hrow : table[first]? with _ | v
      · have hnew : first ∉ table := by
          rw [← Std.TreeMap.isSome_getElem?_iff_mem, hrow]
          simp
        simp [hnew]
      · have hold : first ∈ table := by
          rw [← Std.TreeMap.isSome_getElem?_iff_mem, hrow]
          rfl
        simp [hold]
    · simp [hname, Ne.symm hname]

/-- A name keeps the precedence that it has, or gets that of the first level that lists it. -/
theorem getElem?_of_precedences {table levels : Std.TreeMap String Precedence} {priority : Nat}
    {rows : List PrecedenceLevel} (h : precedences table priority rows = .ok levels) :
    levels[name]? = table[name]?.or
      (((rows.zipIdx priority).find? fun row => row.1.names.contains name).map
        fun row => ⟨row.2, row.1.assoc⟩) := by
  induction rows generalizing table priority with
  | nil =>
    cases h
    simp
  | cons level rest ih =>
    rw [precedences] at h
    split at h
    · rw [ih h, getElem?_foldl_insertIfNew, List.zipIdx_cons, List.find?_cons]
      cases level.names.contains name <;> cases table[name]? <;> simp
    · cases h

end Template

/-! ## Right-hand sides -/

namespace Expansion

variable {src : ExpansionSource} {x y z : Expansion} {closed p : Parameter} {s : Symbol}
  {symbols : List Symbol} {env : Bindings} {owner i next : Nat} {inst : RuleInstance}
  {right : Branch → List Symbol}

/-- Tokens and instances have the numbers that their places give them. -/
theorem eq_symbolIn (hnames : src.template.WellNamed) (bounded : x.Bounded src.template next)
    (h : x.symbolOf? src p = some s) : s = src.template.symbolIn x.applications p := by
  cases htoken : src.token? p with
  | some i =>
    have hname := isToken_of_token? htoken
    have hget : src.template.tokens[i]? = some p.head := by
      rw [← hnames.tokenNamed?_iff, ← htoken, ExpansionSource.token?, hname.1]
      rfl
    obtain ⟨hlt, hi⟩ := List.getElem?_eq_some_iff.mp hget
    cases (symbolOf?_of_token htoken).symm.trans h
    rw [Template.symbolIn, if_pos hname, ← hi,
      (List.nodup_append.mp hnames.globals).1.idxOf_getElem i hlt]
  | none =>
    have hname : ¬ src.template.IsToken p := ExpansionSource.token?_eq_none_iff.mp htoken
    obtain ⟨i, hi, rfl⟩ := find?_of_not_token htoken h
    obtain ⟨inst, hinst, rfl, _⟩ := find?_eq_some_iff.mp hi
    have hget : x.applications[i]? = some inst.closed := by
      rw [getElem?_applications, hinst]
      rfl
    obtain ⟨hlt, hi⟩ := List.getElem?_eq_some_iff.mp hget
    have hnodup : x.applications.Nodup := bounded.distinct
    rw [Template.symbolIn, if_neg hname, ← hi, hnodup.idxOf_getElem i hlt]

/-- The right-hand side of a branch for an instance, in terms of the whole expansion. -/
def rightOf (src : ExpansionSource) (z : Expansion) (inst : RuleInstance) (branch : Branch) :
    List Symbol :=
  (Elements (bindings src inst) branch).map (src.template.symbolIn z.applications)

theorem SymbolsOf.eq_rightOf (hnames : src.template.WellNamed)
    (bounded : z.Bounded src.template next) {branch : Branch}
    (h : SymbolsOf src z (Elements (bindings src inst) branch) symbols) :
    symbols = rightOf src z inst branch := by
  refine List.map_injective_iff.mpr (Option.some_injective _) ?_
  rw [← h, rightOf, List.map_map]
  refine List.map_congr_left fun p hp => ?_
  obtain ⟨s, hs⟩ := h.exists_symbol hp
  rw [hs, eq_symbolIn hnames bounded hs]
  rfl

/-! ## The rules of an instance -/

/-- There is a rule with a right-hand side for an instance. -/
def HasRule (x : Expansion) (owner : Nat) (symbols : List Symbol) : Prop :=
  ∃ r ∈ x.rules, r.owner = owner ∧ r.right = symbols

/-- The rule of a branch, which is given with its number. -/
def ruleOf (src : ExpansionSource) (owner source : Nat) (right : Branch → List Symbol)
    (entry : Branch × Nat) : InstanceRule :=
  ⟨source, entry.2, owner, right entry.1, entry.1.precedence.bind fun name => src.levels[name]?⟩

/-- The rule of a branch, unless an earlier branch has the same right-hand side. -/
def ruleOf? (src : ExpansionSource) (owner source : Nat) (right : Branch → List Symbol)
    (branches : List Branch) (entry : Branch × Nat) : Option InstanceRule :=
  if right entry.1 ∈ (branches.take entry.2).map right then none
  else some (ruleOf src owner source right entry)

theorem ruleOf?_eq_some {source : Nat} {branches : List Branch} {entry : Branch × Nat}
    {r : InstanceRule} (h : ruleOf? src owner source right branches entry = some r) :
    r = ruleOf src owner source right entry := by
  unfold ruleOf? at h
  split at h
  · cases h
  · exact (Option.some.inj h).symm

theorem branchPrecedence_eq_ok {branch : Branch} {precedence : Option Precedence}
    (h : branchPrecedence src branch = .ok precedence) :
    precedence = (branch.precedence.bind fun name => src.levels[name]?) ∧
      ∀ name ∈ branch.precedence, ∃ p, src.levels[name]? = some p := by
  unfold branchPrecedence at h
  split at h
  · rename_i hnone
    cases h
    simp [hnone]
  · rename_i name hname
    split at h
    · rename_i p hp
      cases h
      simp [hname, hp]
    · cases h

/-- A rule is added unless its right-hand side is there, and then its right-hand side is there. -/
theorem rules_addRule (closed : Parameter) {r : InstanceRule} {seen : List (List Symbol)}
    (hseen : ∀ symbols, x.HasRule r.owner symbols ↔ symbols ∈ seen) :
    (x.addRule closed r).rules.toList = x.rules.toList ++ (if r.right ∈ seen then [] else [r]) ∧
      ∀ symbols, (x.addRule closed r).HasRule r.owner symbols ↔ symbols ∈ seen ++ [r.right] := by
  have hany : (x.rules.any fun other => other.owner == r.owner && other.right == r.right) = true ↔
      r.right ∈ seen := by
    rw [← hseen, Array.any_eq_true']
    simp [HasRule]
  unfold addRule
  split
  · rename_i hold
    have hmem := hany.mp hold
    refine ⟨by simp [report, hmem], fun symbols => (hseen symbols).trans ?_⟩
    rw [List.mem_append, List.mem_singleton]
    exact ⟨Or.inl, fun h => h.elim id fun heq => heq ▸ hmem⟩
  · rename_i hnew
    have hmem : r.right ∉ seen := fun hmem => hnew (hany.mpr hmem)
    refine ⟨by simp [hmem], fun symbols => ?_⟩
    rw [List.mem_append, List.mem_singleton, ← hseen]
    simp only [HasRule, Array.mem_push]
    constructor
    · rintro ⟨other, hother | rfl, howner, hright⟩
      · exact Or.inl ⟨other, hother, howner, hright⟩
      · exact Or.inr hright.symm
    · rintro (⟨other, hother, howner, hright⟩ | rfl)
      · exact ⟨other, Or.inl hother, howner, hright⟩
      · exact ⟨r, Or.inr rfl, rfl, rfl⟩

/-- Some branches of an instance, after `done`, add a rule each, apart from those that repeat a
right-hand side. -/
theorem rules_expandBranches (right : Branch → List Symbol) (done : List Branch)
    {rest : List Branch}
    (hright : ∀ branch ∈ rest, ∀ symbols, SymbolsOf src y (Elements env branch) symbols →
      symbols = right branch)
    (hdone : ∀ symbols, x.HasRule owner symbols ↔ symbols ∈ done.map right)
    (hrun : expandBranches src owner inst env x (rest.zipIdx done.length) = (.ok (), y)) :
    y.rules.toList = x.rules.toList ++ (rest.zipIdx done.length).filterMap
      (ruleOf? src owner inst.source right (done ++ rest)) := by
  induction rest generalizing x done with
  | nil =>
    cases hrun
    simp
  | cons branch rest ih =>
    rw [List.zipIdx_cons] at hrun
    obtain ⟨x', symbols, precedence, hresolve, hprecedence, hrun⟩ :=
      exists_of_expandBranches_cons hrun
    obtain ⟨hadds, hsymbols⟩ := resolveAll_spec hresolve
    obtain ⟨rfl, _⟩ := branchPrecedence_eq_ok hprecedence
    have hgrows := (addRule_spec x' inst.closed _).1.trans (expandBranches_spec hrun).grows
    obtain rfl := hright branch List.mem_cons_self symbols (hgrows.symbolsOf hsymbols)
    have hseen : ∀ symbols, x'.HasRule owner symbols ↔ symbols ∈ done.map right := by
      intro symbols
      rw [← hdone, HasRule, HasRule, hadds.rules]
    let rule := ruleOf src owner inst.source right (branch, done.length)
    let added := x'.addRule inst.closed rule
    obtain ⟨hrules, hhas⟩ : added.rules.toList =
        x'.rules.toList ++ (if right branch ∈ done.map right then [] else [rule]) ∧
          ∀ symbols, added.HasRule owner symbols ↔ symbols ∈ done.map right ++ [right branch] :=
      rules_addRule inst.closed hseen
    have hrest : y.rules.toList = added.rules.toList ++ (rest.zipIdx (done.length + 1)).filterMap
        (ruleOf? src owner inst.source right (done ++ branch :: rest)) := by
      simpa using ih (done ++ [branch]) (fun b hb => hright b (List.mem_cons_of_mem _ hb))
        (by simpa using hhas) (List.length_append ▸ hrun)
    have hrule : ruleOf? src owner inst.source right (done ++ branch :: rest)
        (branch, done.length) = if right branch ∈ done.map right then none else some rule := by
      rw [ruleOf?, List.take_left]
    rw [hrest, hrules, hadds.rules, List.zipIdx_cons, List.filterMap_cons, hrule]
    by_cases hmem : right branch ∈ done.map right
    · simp only [if_pos hmem, List.append_nil]
    · simp only [if_neg hmem, List.append_assoc, List.singleton_append]

theorem levels_expandBranches {branches : List (Branch × Nat)}
    (hrun : expandBranches src owner inst env x branches = (.ok (), y)) :
    ∀ b ∈ branches, ∀ name ∈ b.1.precedence, ∃ p, src.levels[name]? = some p := by
  induction branches generalizing x with
  | nil => simp
  | cons entry rest ih =>
    obtain ⟨branch, b⟩ := entry
    obtain ⟨_, _, _, _, hprecedence, hrest⟩ := exists_of_expandBranches_cons hrun
    exact List.forall_mem_cons.mpr ⟨(branchPrecedence_eq_ok hprecedence).2, ih hrest⟩

/-! ## The rules of all instances -/

/-- The rules of an instance, which is given with its number. -/
def rulesOf (src : ExpansionSource) (z : Expansion) (row : RuleInstance × Nat) :
    List InstanceRule :=
  (src.template.branchesOf row.1.source).zipIdx.filterMap
    (ruleOf? src row.2 row.1.source (rightOf src z row.1) (src.template.branchesOf row.1.source))

/-- The rules are those of the instances before `next`, whose branches name known precedences.  In
right-hand sides the symbols have the numbers that they have in the whole expansion `z`. -/
structure Lists (src : ExpansionSource) (z x : Expansion) (next : Nat) : Prop where
  owner_lt : ∀ r ∈ x.rules, r.owner < next
  levels : ∀ i < next, ∀ inst, x.instances[i]? = some inst →
    ∀ branch ∈ src.template.branchesOf inst.source, ∀ name ∈ branch.precedence,
      ∃ p, src.levels[name]? = some p
  rules : x.Grows z →
    x.rules.toList = (x.instances.toList.take next).zipIdx.flatMap (rulesOf src z)

theorem Lists.expandInstance (hnames : src.template.WellNamed)
    (bounded : z.Bounded src.template z.instances.size) (h : Lists src z x next)
    (hinst : x.instances[next]? = some inst)
    (hrun : x.expandInstance src next inst = (.ok (), y)) : Lists src z y (next + 1) := by
  have hcovers := expandInstance_spec hrun
  obtain ⟨hsize, _⟩ := Array.getElem?_eq_some_iff.mp hinst
  constructor
  case owner_lt =>
    intro r hr
    rcases hcovers.rules r hr with hr | ⟨rfl, _⟩
    · exact Nat.lt_succ_of_lt (h.owner_lt r hr)
    · exact Nat.lt_succ_self _
  case levels =>
    intro i hi other hother branch hbranch
    rcases hcovers.grows.instance_cases hinst hi hother with ⟨hlt, hold⟩ | ⟨rfl, rfl⟩
    · exact h.levels i hlt other hold branch hbranch
    · obtain ⟨b, hb⟩ := List.mem_iff_getElem?.mp hbranch
      exact levels_expandBranches hrun (branch, b) (List.mem_zipIdx_iff_getElem?.mpr hb)
  case rules =>
    intro hgrows
    have hnone : ∀ symbols, ¬ x.HasRule next symbols := by
      rintro symbols ⟨r, hr, howner, _⟩
      exact Nat.lt_irrefl _ (howner ▸ h.owner_lt r hr)
    have hrules : y.rules.toList = x.rules.toList ++ rulesOf src z (inst, next) :=
      rules_expandBranches (rightOf src z inst) []
        (fun _ _ _ hs => (hgrows.symbolsOf hs).eq_rightOf hnames bounded)
        (fun symbols => by simp [hnone symbols]) hrun
    have hlength : (x.instances.toList.take next).length = next := by
      simpa using Nat.le_of_lt hsize
    rw [hrules, h.rules (hcovers.grows.trans hgrows), hcovers.grows.take_succ hinst,
      List.zipIdx_append, List.flatMap_append, hlength, Nat.zero_add, List.zipIdx_singleton,
      List.flatMap_singleton]

/-- The rules are those of all instances, whose branches name known precedences. -/
theorem rules_of_expandAll (hnames : src.template.WellNamed) (h : expandAll src = (.ok (), x)) :
    x.rules.toList = x.instances.toList.zipIdx.flatMap (rulesOf src x) ∧
      ∀ inst ∈ x.instances, ∀ branch ∈ src.template.branchesOf inst.source,
        ∀ name ∈ branch.precedence, ∃ p, src.levels[name]? = some p := by
  have hbounded := (finished_of_expandAll hnames h).bounded
  obtain ⟨_, _, hlists⟩ := kept_of_expandAll (P := Lists src x) h
    (fun _ hbegun => by
      obtain ⟨_, hrules, _⟩ := instances_begun hbegun
      exact ⟨by simp [hrules], fun i hi => absurd hi (Nat.not_lt_zero i),
        fun _ => by simp [hrules]⟩)
    (fun rest hkept => ⟨hkept.owner_lt, hkept.levels, fun hgrows =>
      hkept.rules ⟨hgrows.instances, hgrows.rules⟩⟩)
    fun hkept hinst hrun => hkept.expandInstance hnames hbounded hinst hrun
  constructor
  · have hrules := hlists.rules (.refl x)
    rwa [List.take_of_length_le (Nat.le_of_eq Array.length_toList)] at hrules
  · intro inst hinst
    obtain ⟨i, hi⟩ := Array.mem_iff_getElem?.mp hinst
    obtain ⟨hlt, _⟩ := Array.getElem?_eq_some_iff.mp hi
    exact hlists.levels i hlt inst hi

/-! ## The order of the rules -/

/-- What the numbered members of a list lead to, restricted to the number of one of them. -/
theorem filter_filterMap_zipIdx {α β : Type} {f : α × Nat → Option β} {key : β → Nat}
    (hkey : ∀ row r, f row = some r → key r = row.2) {l : List α} {b : Nat} {a : α}
    (ha : l[b]? = some a) : (l.zipIdx.filterMap f).filter (key · == b) = (f (a, b)).toList := by
  have hother : ∀ {rows : List (α × Nat)}, (∀ row ∈ rows, row.2 ≠ b) →
      (rows.filterMap f).filter (key · == b) = [] := by
    intro rows hrows
    refine List.filter_eq_nil_iff.mpr fun r hr => ?_
    obtain ⟨row, hrow, hr⟩ := List.mem_filterMap.mp hr
    simpa [hkey row r hr] using hrows row hrow
  have hbefore : ∀ row ∈ (l.take b).zipIdx, row.2 ≠ b := by
    intro row hrow
    have hlt := (List.getElem?_eq_some_iff.mp (List.mem_zipIdx_iff_getElem?.mp hrow)).1
    rw [List.length_take] at hlt
    omega
  have hafter : ∀ row ∈ (l.drop (b + 1)).zipIdx (b + 1), row.2 ≠ b := by
    intro row hrow
    have hle := (List.mk_mem_zipIdx_iff_le_and_getElem?_sub.mp hrow).1
    omega
  obtain ⟨hlt, hget⟩ := List.getElem?_eq_some_iff.mp ha
  have hsplit : l.zipIdx =
      (l.take b).zipIdx ++ ([(a, b)] ++ (l.drop (b + 1)).zipIdx (b + 1)) := by
    conv_lhs => rw [← List.take_append_drop b l, List.drop_eq_getElem_cons hlt, hget]
    rw [List.zipIdx_append, List.length_take_of_le (Nat.le_of_lt hlt), Nat.zero_add]
    rfl
  rw [hsplit, List.filterMap_append, List.filterMap_append, List.filter_append, List.filter_append,
    hother hbefore, hother hafter, List.nil_append, List.append_nil]
  cases hrow : f (a, b) with
  | none => simp [hrow]
  | some r => simp [hrow, hkey _ r hrow]

/-- What a rule of an instance declares. -/
def declared (r : InstanceRule) : Nat × List Symbol × Option Precedence :=
  (r.owner + 1, r.right, r.precedence)

/-- Of the rules of an instance, one at most comes from a branch of the template. -/
theorem declared_rulesOf (hnames : src.template.WellNamed)
    (hlevels : ∀ name, src.levels[name]? = src.template.precedenceOf? name)
    (hinst : sourceOf src inst.closed = .ok inst.source) {rule : TemplateRule} {branch : Branch}
    {source b : Nat} (hrule : src.template.rules[source]? = some rule)
    (hbranch : rule.branches[b]? = some branch) :
    ((rulesOf src x (inst, owner)).filter fun r => r.source == source && r.branch == b).map
        declared =
      (src.template.production? x.applications rule (branch, b) (inst.closed, owner)).toList := by
  obtain ⟨rule', hnamed, hbranches, helements⟩ := exists_rule_of_instance hnames hinst
  have hsource : ∀ r ∈ rulesOf src x (inst, owner), r.source = inst.source := by
    intro r hr
    obtain ⟨row, _, hr⟩ := List.mem_filterMap.mp hr
    rw [ruleOf?_eq_some hr, ruleOf]
  by_cases hsame : inst.source = source
  · subst hsame
    obtain ⟨hget, hname⟩ := hnames.ruleNamed?_iff.mp hnamed
    cases hget.symm.trans hrule
    have hright : rightOf src x inst =
        src.template.rightIn x.applications rule inst.closed := by
      funext other
      rw [rightOf, helements, Template.rightIn]
    have hbranch : (rulesOf src x (inst, owner)).filter (·.branch == b) =
        (ruleOf? src owner inst.source (rightOf src x inst) rule.branches (branch, b)).toList := by
      rw [rulesOf, hbranches]
      exact filter_filterMap_zipIdx (fun row r hr => by rw [ruleOf?_eq_some hr, ruleOf]) hbranch
    rw [List.filter_congr fun r hr => by rw [hsource r hr, beq_self_eq_true, Bool.true_and],
      hbranch, Template.production?, ruleOf?, hright]
    by_cases hmem : src.template.rightIn x.applications rule inst.closed branch ∈
        (rule.branches.take b).map (src.template.rightIn x.applications rule inst.closed)
    · rw [if_pos hmem, if_neg fun h => h.2 hmem]
      rfl
    · rw [if_neg hmem, if_pos ⟨hname.symm, hmem⟩]
      simp [declared, ruleOf, hlevels, Option.toList]
  · have hhead : inst.closed.head ≠ rule.name := by
      intro hhead
      cases hnamed.symm.trans (hnames.ruleNamed?_iff.mpr ⟨hrule, hhead.symm⟩)
      exact hsame rfl
    rw [List.filter_eq_nil_iff.mpr fun r hr => by simp [hsource r hr, hsame], Template.production?,
      if_neg fun h => hhead h.1]
    rfl

/-- The rules in the order of the template are its productions for the instances. -/
theorem productions_eq (hnames : src.template.WellNamed)
    (hlevels : ∀ name, src.levels[name]? = src.template.precedenceOf? name) (h : x.Finished src)
    (hrules : x.rules.toList = x.instances.toList.zipIdx.flatMap (rulesOf src x)) :
    (x.orderedRules src.template).map declared = src.template.productions x.applications := by
  have hzip : src.template.productions x.applications = src.template.rules.zipIdx.flatMap fun row =>
      row.1.branches.zipIdx.flatMap fun branch =>
        x.applications.zipIdx.filterMap
          (src.template.production? x.applications row.1 branch) := by
    conv_lhs =>
      rw [Template.productions, ← List.zipIdx_map_fst 0 src.template.rules, List.flatMap_map]
  rw [hzip, orderedRules, List.map_flatMap]
  refine List.flatMap_congr ?_
  rintro ⟨rule, source⟩ hrule
  rw [List.map_flatMap]
  refine List.flatMap_congr ?_
  rintro ⟨branch, b⟩ hbranch
  dsimp only
  rw [hrules, List.filter_flatMap, List.map_flatMap, applications, List.zipIdx_map,
    List.filterMap_map, List.filterMap_eq_flatMap_toList]
  refine List.flatMap_congr ?_
  rintro ⟨inst, owner⟩ hinst
  have hmem := List.mem_of_getElem? (List.mem_zipIdx_iff_getElem?.mp hinst)
  exact declared_rulesOf hnames hlevels (h.sound.source inst (Array.mem_toList_iff.mp hmem)).2
    (List.mem_zipIdx_iff_getElem?.mp hrule) (List.mem_zipIdx_iff_getElem?.mp hbranch)

theorem rules_of_declarations : (x.declarations src).filterMap Declaration.rule? =
    (x.orderedRules src.template).map declared := by
  change _ = (x.orderedRules src.template).map fun r => (r.owner + 1, r.right, r.precedence)
  simp [declarations, List.filterMap_map, Function.comp_def, Declaration.rule?,
    List.filterMap_cons]

end Expansion

/-! ## Expansion -/

namespace Template

variable {t : Template} {sorts : RuleSorts} {g : Grammar}

/-- If a template is expanded, the nonterminals after the reserved one are what can be reached from
its start symbol, in breadth-first order.  The rules after the augmented one are its productions for
these nonterminals: by rule, by branch and by nonterminal, without those that repeat a right-hand
side.  Rules and tokens have the precedence of the first level that lists their name, and no branch
of an instance names an unknown level. -/
theorem expand_lists_instances (hsorts : t.inferSorts = .ok sorts)
    (hg : (t.expand sorts).result = .ok g) :
    ∃ start apps, t.startName? = some start ∧ t.BreadthFirst start apps ∧
      (∀ i : Nat, g.nonterminals[i + 1]? = apps[i]?.map Parameter.text) ∧
      (∀ k : Nat, g.rules[k + 1]? = (t.productions apps)[k]?.map (Rule.numbered (k + 1))) ∧
      (∀ i : Nat, g.terminals[i + 1]? =
        t.tokens[i]?.map fun name => ⟨name, t.precedenceOf? name⟩) ∧
      ∀ p ∈ apps, ∀ rule ∈ t.rules, p.head = rule.name → ∀ branch ∈ rule.branches,
        ∀ name ∈ branch.precedence, ∃ precedence, t.precedenceOf? name = some precedence := by
  obtain ⟨levels, x, hlevels, hx, hdefine⟩ := expand_eq_ok_iff.mp hg
  let src : ExpansionSource := ⟨t, sorts, levels⟩
  have hnames : src.template.WellNamed := wellNamed_of_inferSorts hsorts
  have hlookup : ∀ name, levels[name]? = t.precedenceOf? name := by
    intro name
    rw [getElem?_of_precedences hlevels, Std.TreeMap.getElem?_emptyc, Option.none_or]
    rfl
  have hfinished := Expansion.finished_of_expandAll hnames hx
  have hdeclares := Grammar.declares_of_define hdefine
  obtain ⟨start, hstart, happs⟩ := Expansion.breadthFirst_of_expandAll hnames hx
  obtain ⟨hrules, hlisted⟩ := Expansion.rules_of_expandAll hnames hx
  refine ⟨start, x.applications, hstart, happs, fun i => ?_, fun k => ?_, fun i => ?_, ?_⟩
  · have hget := hdeclares.nonterminals.getElem?_add (i + 1)
    rw [Nat.zero_add, List.getElem?_cons_succ, Expansion.nonterminals_of_declarations] at hget
    rw [hget, Expansion.applications, List.getElem?_map, List.getElem?_map, Option.map_map]
    rfl
  · rw [hdeclares.getElem?_rules (Grammar.augmented_of_define hdefine),
      Expansion.rules_of_declarations, Expansion.productions_eq hnames hlookup hfinished hrules]
  · have hget := hdeclares.terminals.getElem?_add (i + 1)
    rw [Nat.zero_add, List.getElem?_cons_succ, Expansion.terminals_of_declarations] at hget
    rw [hget, List.getElem?_map]
    simp only [hlookup]
  · intro p hp rule hr hhead branch hbranch name hname
    obtain ⟨inst, hinst, rfl⟩ := List.mem_map.mp hp
    have hmem := Array.mem_toList_iff.mp hinst
    obtain ⟨rule', hnamed, hbranches, _⟩ :=
      Expansion.exists_rule_of_instance hnames (hfinished.sound.source inst hmem).2
    obtain ⟨hget, hname'⟩ := ruleNamed?_eq_some hnamed
    obtain rfl := hnames.eq_of_name_eq hr (List.mem_of_getElem? hget) (hhead.symm.trans hname'.symm)
    obtain ⟨precedence, hprecedence⟩ := hlisted inst hmem branch (hbranches ▸ hbranch) name hname
    exact ⟨precedence, (hlookup name).symm.trans hprecedence⟩

/-- Two applications of one rule, of which the second one repeats a right-hand side.  The token `b`
is listed by two levels. -/
def choices : Template where
  tokens := ["a", "b"]
  levels := [⟨.left, ["b"]⟩, ⟨.right, ["low", "b"]⟩]
  rules :=
    [Samples.plainRule "main"
        [[.app "either" [.var "a", .var "b"], .app "either" [.var "a", .var "a"]]],
      ⟨"either", ["X", "Y"], [Samples.branch [.var "X"], ⟨[.var "Y"], some "low"⟩]⟩]
  start := none

/-- The sorts of the rules of `choices`. -/
def choicesSorts : RuleSorts := [("main", .star), ("either", .arrow [.star, .star])]

/-- The instances of `choices`. -/
def choicesInstances : List Parameter :=
  [.var "main", .app "either" [.var "a", .var "b"], .app "either" [.var "a", .var "a"]]

theorem expand_lists_instances_choices :
    choices.inferSorts = .ok choicesSorts ∧ choices.BreadthFirst "main" choicesInstances ∧
      ∃ g, (choices.expand choicesSorts).result = .ok g ∧
        (∀ i : Nat, g.nonterminals[i + 1]? = choicesInstances[i]?.map Parameter.text) ∧
        (∀ k : Nat, g.rules[k + 1]? =
          [(1, [.nonterminal 2, .nonterminal 3], none), (2, [.terminal 1], none),
            (3, [.terminal 1], none), (2, [.terminal 2], some ⟨1, .right⟩)][k]?.map
              (Rule.numbered (k + 1))) ∧
        g.terminals[2]? = some ⟨"b", some ⟨0, .left⟩⟩ := by
  have hsorts : choices.inferSorts = .ok choicesSorts :=
    eq_ok_of_toOption_eq_some (by decide +kernel)
  have hnames := wellNamed_of_inferSorts hsorts
  have hordered : (precedences ∅ 0 choices.levels).toOption.isSome = true := by decide +kernel
  have hlevels : (precedences ∅ 0 choices.levels).toOption =
      some ((precedences ∅ 0 choices.levels).toOption.getD ∅) :=
    (Option.some_get hordered).symm.trans (congrArg some (Option.get_eq_getD _))
  let src : ExpansionSource :=
    ⟨choices, choicesSorts, (precedences ∅ 0 choices.levels).toOption.getD ∅⟩
  have hbegun : Expansion.empty.instantiate src (.var "main") =
      (.ok 0, (Expansion.empty.instantiate src (.var "main")).2) :=
    Prod.ext (eq_ok_of_toOption_eq_some (by decide +kernel)) rfl
  let x := (Expansion.expandUpTo src 3 (Expansion.empty.instantiate src (.var "main")).2).2
  have hx : Expansion.expandAll src = (.ok (), x) :=
    (Expansion.expandAll_eq_expandUpTo 3 rfl hbegun (by decide +kernel)).trans
      (Prod.ext (eq_ok_of_toOption_eq_some (by decide +kernel)) rfl)
  have hdefined : (Grammar.define (x.declarations src)).toOption.isSome = true := by
    decide +kernel
  obtain ⟨g, hg⟩ := Option.isSome_iff_exists.mp hdefined
  have hexpand : (choices.expand choicesSorts).result = .ok g :=
    expand_eq_ok_iff.mpr
      ⟨_, x, eq_ok_of_toOption_eq_some hlevels, hx, eq_ok_of_toOption_eq_some hg⟩
  have hinstances : x.applications = choicesInstances := by decide +kernel
  obtain ⟨start, hstart, horder⟩ := Expansion.breadthFirst_of_expandAll hnames hx
  cases hstart
  rw [hinstances] at horder
  obtain ⟨start, apps, hstart, happs, hnonterminals, hrules, hterminals, _⟩ :=
    expand_lists_instances hsorts hexpand
  cases hstart
  obtain rfl := happs.unique hnames rfl horder
  refine ⟨hsorts, happs, g, hexpand, hnonterminals, fun k => ?_, hterminals 1⟩
  rw [hrules k]
  rfl

end Template
end ParserGen
