import ParserGen.Proofs.Template.Rewriting
import ParserGen.Proofs.Template.Turns

/-!
# The instances of an expansion

While instances are expanded their number grows, but none of them changes, so a symbol that was
found for a closed application stays its symbol.  Each instance is reached from the start symbol,
and when there is nothing left to expand, every branch of every instance has its rule.

Main results:

- Theorem `Expansion.resolveAll_spec`: the symbols of a branch are those of its elements.
- Theorem `Expansion.expandBranches_spec`: what expanding the branches of one instance adds.
- Theorem `Expansion.kept_of_expandAll`, `Expansion.finished_of_expandAll`: the invariant of the
  whole expansion.
- Theorem `Expansion.Finished.exists_rule_of_unfolds`, `Expansion.Finished.exists_unfolds_of_rule`:
  the rules are what the instances unfold to.
- Theorem `Expansion.Finished.exists_instance_iff`: the instances are what can be reached.
-/

namespace ParserGen

/-- The number of the token that a closed application is, if it is one. -/
def ExpansionSource.token? (src : ExpansionSource) (closed : Parameter) : Option Nat :=
  if closed.args.isEmpty then src.template.tokenNamed? closed.head else none

/-- A closed application is a token if it is the name of one. -/
theorem ExpansionSource.token?_eq_some_iff {src : ExpansionSource} (h : src.template.WellNamed)
    {closed : Parameter} (hnormal : closed.Normal) {i : Nat} :
    src.token? closed = some i ↔ ∃ name, src.template.tokens[i]? = some name ∧
      closed = .var name := by
  unfold token?
  constructor
  · intro htoken
    split at htoken
    · rename_i hargs
      exact ⟨closed.head, h.tokenNamed?_iff.mp htoken,
        hnormal.eq_var (List.isEmpty_iff.mp hargs)⟩
    · cases htoken
  · rintro ⟨name, hname, rfl⟩
    exact h.tokenNamed?_iff.mpr hname

namespace Template

/-- Whether a closed application is the bare name of a token. -/
def IsToken (t : Template) (p : Parameter) : Prop := p.args = [] ∧ p.head ∈ t.tokens

/-- Names are compared with the names of the tokens. -/
instance (t : Template) : DecidablePred t.IsToken := fun p =>
  inferInstanceAs (Decidable (p.args = [] ∧ p.head ∈ t.tokens))

end Template

/-- Only the bare names of tokens are tokens. -/
theorem ExpansionSource.token?_eq_none_iff {src : ExpansionSource} {closed : Parameter} :
    src.token? closed = none ↔ ¬ src.template.IsToken closed := by
  unfold token?
  constructor
  · rintro htoken ⟨hargs, hhead⟩
    rw [hargs] at htoken
    obtain ⟨i, hi⟩ := Template.isSome_tokenNamed? hhead
    cases hi.symm.trans htoken
  · intro hnot
    split
    · rename_i hargs
      refine Option.eq_none_iff_forall_not_mem.mpr fun i hi => hnot ⟨List.isEmpty_iff.mp hargs, ?_⟩
      exact List.mem_of_getElem? (Template.tokenNamed?_eq_some hi)
    · rfl

/-- A closed application of a rule is not a token. -/
theorem ExpansionSource.token?_eq_none_of_rule {src : ExpansionSource}
    (h : src.template.WellNamed) {rule : TemplateRule} (hr : rule ∈ src.template.rules)
    {closed : Parameter} (hhead : closed.head = rule.name) : src.token? closed = none := by
  unfold token?
  split
  · refine Option.eq_none_iff_forall_not_mem.mpr fun i hi => ?_
    have htoken := List.mem_of_getElem? (h.tokenNamed?_iff.mp hi)
    exact h.not_mem_tokens hr (hhead ▸ htoken)
  · rfl

/-- What unfolds is no token, as rules and tokens have different names. -/
theorem ExpansionSource.token?_eq_none_of_unfolds {src : ExpansionSource}
    (h : src.template.WellNamed) {closed : Parameter} {elements : List Parameter}
    (hunfolds : src.template.Unfolds closed elements) : src.token? closed = none := by
  obtain ⟨rule, hr, _, _, hhead, _⟩ := hunfolds
  exact token?_eq_none_of_rule h hr hhead

namespace Expansion

variable {src : ExpansionSource} {x y z : Expansion} {closed p : Parameter} {s : Symbol}
  {right : List Symbol} {env : Bindings} {owner i : Nat} {inst : RuleInstance}

/-! ## Symbols of closed applications -/

/-- The symbol of a closed application, if it is a token or an instance. -/
def symbolOf? (src : ExpansionSource) (x : Expansion) (closed : Parameter) : Option Symbol :=
  match src.token? closed with
  | some i => some (.terminal (i + 1))
  | none => (x.find? closed).map fun i => .nonterminal (i + 1)

/-- A token stands for the terminal that was declared for it. -/
theorem symbolOf?_of_token (h : src.token? closed = some i) :
    x.symbolOf? src closed = some (.terminal (i + 1)) := by
  rw [symbolOf?, h]

/-- Every other closed application stands for the nonterminal of its instance. -/
theorem symbolOf?_of_not_token (h : src.token? closed = none) :
    x.symbolOf? src closed = (x.find? closed).map fun i => .nonterminal (i + 1) := by
  rw [symbolOf?, h]

/-- What is not a token has the symbol of an instance. -/
theorem find?_of_not_token (h : src.token? closed = none)
    (hs : x.symbolOf? src closed = some s) :
    ∃ i, x.find? closed = some i ∧ s = .nonterminal (i + 1) := by
  rw [symbolOf?_of_not_token h] at hs
  obtain ⟨i, hi, rfl⟩ := Option.map_eq_some_iff.mp hs
  exact ⟨i, hi, rfl⟩

/-- Only tokens are terminals. -/
theorem token?_of_symbolOf? {a : Nat} (h : x.symbolOf? src closed = some (.terminal a)) :
    ∃ i, src.token? closed = some i ∧ a = i + 1 := by
  cases htoken : src.token? closed with
  | some i =>
    cases (symbolOf?_of_token htoken).symm.trans h
    exact ⟨i, rfl, rfl⟩
  | none =>
    obtain ⟨i, _, hn⟩ := find?_of_not_token htoken h
    cases hn

/-- Only instances are nonterminals. -/
theorem find?_of_symbolOf? {n : Nat} (h : x.symbolOf? src closed = some (.nonterminal n)) :
    ∃ i, x.find? closed = some i ∧ n = i + 1 := by
  cases htoken : src.token? closed with
  | some i => cases (symbolOf?_of_token htoken).symm.trans h
  | none =>
    obtain ⟨i, hi, hn⟩ := find?_of_not_token htoken h
    cases hn
    exact ⟨i, hi, rfl⟩

/-- Symbols in a row and the closed applications that they are the symbols of. -/
def SymbolsOf (src : ExpansionSource) (x : Expansion) (ps : List Parameter)
    (symbols : List Symbol) : Prop :=
  ps.map (x.symbolOf? src) = symbols.map some

/-- Each of the applications stands for a symbol. -/
theorem SymbolsOf.exists_symbol {ps : List Parameter} (h : SymbolsOf src x ps right)
    (hp : p ∈ ps) : ∃ s, x.symbolOf? src p = some s := by
  have hmem : x.symbolOf? src p ∈ right.map some := h ▸ List.mem_map_of_mem hp
  obtain ⟨s, _, hs⟩ := List.mem_map.mp hmem
  exact ⟨s, hs.symm⟩

/-- Applications in a row stand for symbols in a row. -/
theorem SymbolsOf.append {ps qs : List Parameter} {left : List Symbol}
    (hp : SymbolsOf src x ps left) (hq : SymbolsOf src x qs right) :
    SymbolsOf src x (ps ++ qs) (left ++ right) := by
  rw [SymbolsOf, List.map_append, List.map_append, hp, hq]

/-- The symbols can be divided where the applications are. -/
theorem SymbolsOf.exists_of_append_left {ps qs : List Parameter}
    (h : SymbolsOf src x (ps ++ qs) right) : ∃ before after, right = before ++ after ∧
      SymbolsOf src x ps before ∧ SymbolsOf src x qs after := by
  rw [SymbolsOf, List.map_append] at h
  obtain ⟨before, after, rfl, hbefore, hafter⟩ := List.map_eq_append_iff.mp h.symm
  exact ⟨before, after, rfl, hbefore.symm, hafter.symm⟩

/-- The applications can be divided where the symbols are. -/
theorem SymbolsOf.exists_of_append_right {ps : List Parameter} {before after : List Symbol}
    (h : SymbolsOf src x ps (before ++ after)) : ∃ front back, ps = front ++ back ∧
      SymbolsOf src x front before ∧ SymbolsOf src x back after := by
  rw [SymbolsOf, List.map_append] at h
  exact List.map_eq_append_iff.mp h

theorem SymbolsOf.exists_of_cons_left {ps : List Parameter} (h : SymbolsOf src x (p :: ps) right) :
    ∃ s rest, right = s :: rest ∧ x.symbolOf? src p = some s ∧ SymbolsOf src x ps rest := by
  rw [SymbolsOf, List.map_cons] at h
  obtain ⟨s, rest, rfl, hs, hrest⟩ := List.map_eq_cons_iff.mp h.symm
  exact ⟨s, rest, rfl, hs.symm, hrest.symm⟩

theorem SymbolsOf.exists_of_cons_right {ps : List Parameter} (h : SymbolsOf src x ps (s :: right)) :
    ∃ p rest, ps = p :: rest ∧ x.symbolOf? src p = some s ∧ SymbolsOf src x rest right :=
  List.map_eq_cons_iff.mp h

/-- Nothing that was there has been changed. -/
structure Grows (x y : Expansion) : Prop where
  instances : ∀ {i : Nat} {inst : RuleInstance}, x.instances[i]? = some inst →
    y.instances[i]? = some inst
  rules : ∀ r ∈ x.rules, r ∈ y.rules

theorem Grows.refl (x : Expansion) : x.Grows x := ⟨id, fun _ hr => hr⟩

theorem Grows.trans (h : x.Grows y) (h' : y.Grows z) : x.Grows z :=
  ⟨fun hi => h'.instances (h.instances hi), fun r hr => h'.rules r (h.rules r hr)⟩

/-- An instance with an old number is an old instance. -/
theorem Grows.old_instance (h : x.Grows y) (hi : i < x.instances.size)
    (hinst : y.instances[i]? = some inst) : x.instances[i]? = some inst := by
  have hold := Array.getElem?_eq_getElem hi
  rw [hold, ← h.instances hold, hinst]

/-- Once an instance is given the turn, those that have had it are the old ones and this one. -/
theorem Grows.instance_cases (h : x.Grows y) {next : Nat} (hinst : x.instances[next]? = some inst)
    (hi : i < next + 1) {other : RuleInstance} (hother : y.instances[i]? = some other) :
    i < next ∧ x.instances[i]? = some other ∨ i = next ∧ other = inst := by
  rcases Nat.lt_succ_iff_lt_or_eq.mp hi with hlt | rfl
  · obtain ⟨hsize, _⟩ := Array.getElem?_eq_some_iff.mp hinst
    exact Or.inl ⟨hlt, h.old_instance (Nat.lt_trans hlt hsize) hother⟩
  · exact Or.inr ⟨rfl, Option.some.inj (hother.symm.trans (h.instances hinst))⟩

/-- What is found is the first instance of a closed application. -/
theorem find?_eq_some_iff : x.find? closed = some i ↔
    ∃ inst, x.instances[i]? = some inst ∧ inst.closed = closed ∧
      ∀ j < i, ∀ other, x.instances[j]? = some other → other.closed ≠ closed := by
  rw [find?, Array.findIdx?_eq_some_iff_getElem]
  constructor
  · rintro ⟨hlt, hi, hbefore⟩
    refine ⟨_, Array.getElem?_eq_getElem hlt, by simpa using hi, fun j hj other hother => ?_⟩
    have hdiffers := hbefore j hj
    obtain ⟨_, rfl⟩ := Array.getElem?_eq_some_iff.mp hother
    simpa using hdiffers
  · rintro ⟨inst, hi, hclosed, hbefore⟩
    obtain ⟨hlt, rfl⟩ := Array.getElem?_eq_some_iff.mp hi
    refine ⟨hlt, by simpa using hclosed, fun j hj => ?_⟩
    simpa using hbefore j hj _ (Array.getElem?_eq_getElem (by omega))

/-- An instance keeps its number. -/
theorem Grows.find? (h : x.Grows y) {i : Nat} (hi : x.find? closed = some i) :
    y.find? closed = some i := by
  obtain ⟨inst, hget, hclosed, hbefore⟩ := find?_eq_some_iff.mp hi
  refine find?_eq_some_iff.mpr ⟨inst, h.instances hget, hclosed, fun j hj other hother => ?_⟩
  obtain ⟨hlt, _⟩ := Array.getElem?_eq_some_iff.mp hget
  exact hbefore j hj other (h.old_instance (Nat.lt_trans hj hlt) hother)

/-- A symbol that was found stays the symbol of its closed application. -/
theorem Grows.symbolOf? (h : x.Grows y) (hs : x.symbolOf? src closed = some s) :
    y.symbolOf? src closed = some s := by
  cases htoken : src.token? closed with
  | some i =>
    rw [symbolOf?_of_token htoken] at hs ⊢
    exact hs
  | none =>
    obtain ⟨i, hi, rfl⟩ := find?_of_not_token htoken hs
    rw [symbolOf?_of_not_token htoken, h.find? hi]
    rfl

/-- Closed applications keep their symbols while instances are added. -/
theorem Grows.symbolsOf (h : x.Grows y) {ps : List Parameter} (hs : SymbolsOf src x ps right) :
    SymbolsOf src y ps right := by
  refine (List.map_congr_left fun p hp => ?_).trans hs
  obtain ⟨s, hsymbol⟩ := hs.exists_symbol hp
  rw [hsymbol, h.symbolOf? hsymbol]

/-! ## Steps that go well -/

/-- An instance that is asked for is there, or it is new and comes last. -/
theorem instantiate_cases (h : x.instantiate src closed = (.ok i, y)) :
    x.find? closed = some i ∧ y = x ∨
      x.find? closed = none ∧ ∃ source, sourceOf src closed = .ok source ∧
        i = x.instances.size ∧ y = { x with
          instances := x.instances.push ⟨closed, source⟩
          queue := x.queue.add x.instances.size
          events := x.events.push (.instantiated closed) } := by
  unfold instantiate at h
  split at h
  · rename_i j hj
    cases h
    exact Or.inl ⟨hj, rfl⟩
  · rename_i hnew
    split at h
    · cases h
    · rename_i source hsource
      cases h
      exact Or.inr ⟨hnew, source, hsource, rfl, rfl⟩

/-- A symbol is that of a token, or of an instance. -/
theorem resolve_cases (h : x.resolve src closed = (.ok s, y)) :
    (∃ i, src.token? closed = some i ∧ s = .terminal (i + 1) ∧ y = x) ∨
      src.token? closed = none ∧
        ∃ i, x.instantiate src closed = (.ok i, y) ∧ s = .nonterminal (i + 1) := by
  unfold resolve at h
  change (match src.token? closed with
    | some i => _
    | none => _) = _ at h
  split at h
  · rename_i i hi
    cases h
    exact Or.inl ⟨i, hi, rfl, rfl⟩
  · rename_i htoken
    split at h
    · rename_i i x' hinstantiate
      cases h
      exact Or.inr ⟨htoken, i, hinstantiate, rfl⟩
    · cases h

/-- The first element of a branch is resolved before the others. -/
theorem exists_of_resolveAll_cons {rest : List Parameter}
    (h : resolveAll src env x (p :: rest) = (.ok right, y)) :
    ∃ x' symbol symbols,
      x.resolve src (p.instantiate (Parameter.standsIn env)) = (.ok symbol, x') ∧
        resolveAll src env x' rest = (.ok symbols, y) ∧ right = symbol :: symbols := by
  simp only [resolveAll] at h
  split at h
  · cases h
  · rename_i closed hsubst
    split at h
    · cases h
    · rename_i symbol x' hresolve
      split at h
      · cases h
      · rename_i symbols x'' hrest
        cases h
        obtain rfl := Parameter.subst_eq_instantiate hsubst
        exact ⟨x', symbol, symbols, hresolve, hrest, rfl⟩

/-- The rule of the first branch is added before the others are expanded. -/
theorem exists_of_expandBranches_cons {branch : Branch} {b : Nat} {rest : List (Branch × Nat)}
    (h : expandBranches src owner inst env x ((branch, b) :: rest) = (.ok (), y)) :
    ∃ x' right precedence, resolveAll src env x branch.elements = (.ok right, x') ∧
      branchPrecedence src branch = .ok precedence ∧
        expandBranches src owner inst env
          (x'.addRule inst.closed ⟨inst.source, b, owner, right, precedence⟩) rest =
            (.ok (), y) := by
  simp only [expandBranches] at h
  split at h
  · cases h
  · rename_i right x' hresolve
    split at h
    · cases h
    · rename_i precedence hprecedence
      exact ⟨x', right, precedence, hresolve, hprecedence, h⟩

/-! ## Resolving the elements of a branch -/

/-- Instances of some closed applications have been added, and nothing else. -/
structure Adds (src : ExpansionSource) (x : Expansion) (ps : List Parameter) (y : Expansion) :
    Prop where
  grows : x.Grows y
  rules : y.rules = x.rules
  new : ∀ inst ∈ y.instances, inst ∈ x.instances ∨
    inst.closed ∈ ps ∧ src.token? inst.closed = none ∧
      sourceOf src inst.closed = .ok inst.source

/-- A closed application that is instantiated has an instance. -/
theorem instantiate_spec {i : Nat} (h : x.instantiate src closed = (.ok i, y)) :
    x.Grows y ∧ y.rules = x.rules ∧ y.find? closed = some i ∧
      ∀ inst ∈ y.instances, inst ∈ x.instances ∨
        inst.closed = closed ∧ sourceOf src closed = .ok inst.source := by
  rcases instantiate_cases h with ⟨hfind, rfl⟩ | ⟨hnew, source, hsource, rfl, rfl⟩
  · exact ⟨.refl _, rfl, hfind, fun inst hi => Or.inl hi⟩
  · refine ⟨⟨fun {j inst} hj => ?_, fun _ hr => hr⟩, rfl, ?_, fun inst hi => ?_⟩
    · obtain ⟨hlt, rfl⟩ := Array.getElem?_eq_some_iff.mp hj
      exact Array.getElem?_push_lt hlt
    · have hnone : x.instances.findIdx? (·.closed == closed) = none := hnew
      rw [find?, Array.findIdx?_push, hnone]
      simp
    · rcases Array.mem_push.mp hi with hi | rfl
      · exact Or.inl hi
      · exact Or.inr ⟨rfl, hsource⟩

/-- A closed application is given its symbol, and an instance if it needs one. -/
theorem resolve_spec (h : x.resolve src closed = (.ok s, y)) :
    x.Adds src [closed] y ∧ y.symbolOf? src closed = some s := by
  rcases resolve_cases h with ⟨i, htoken, rfl, rfl⟩ | ⟨htoken, i, hinstantiate, rfl⟩
  · exact ⟨⟨.refl _, rfl, fun inst hi => Or.inl hi⟩, symbolOf?_of_token htoken⟩
  · obtain ⟨hgrows, hrules, hfind, hnew⟩ := instantiate_spec hinstantiate
    refine ⟨⟨hgrows, hrules, fun inst hi => ?_⟩, ?_⟩
    · rcases hnew inst hi with hold | ⟨rfl, hsource⟩
      · exact Or.inl hold
      · exact Or.inr ⟨List.mem_singleton_self _, htoken, hsource⟩
    · rw [symbolOf?, htoken, hfind]
      rfl

/-- The symbols of a branch are those of its elements, in which names have been replaced. -/
theorem resolveAll_spec {ps : List Parameter} (h : resolveAll src env x ps = (.ok right, y)) :
    x.Adds src (ps.map (Parameter.instantiate (Parameter.standsIn env))) y ∧
      SymbolsOf src y (ps.map (Parameter.instantiate (Parameter.standsIn env))) right := by
  induction ps generalizing x right with
  | nil =>
    cases h
    exact ⟨⟨.refl _, rfl, fun inst hi => Or.inl hi⟩, rfl⟩
  | cons p rest ih =>
    obtain ⟨x', symbol, symbols, hresolve, hrest, rfl⟩ := exists_of_resolveAll_cons h
    obtain ⟨hadds, hsymbol⟩ := resolve_spec hresolve
    obtain ⟨hadds', hsymbols⟩ := ih hrest
    refine ⟨⟨hadds.grows.trans hadds'.grows, hadds'.rules.trans hadds.rules, fun inst hi => ?_⟩,
      congrArg₂ List.cons (hadds'.grows.symbolOf? hsymbol) hsymbols⟩
    rcases hadds'.new inst hi with hi | ⟨hmem, hnew⟩
    · rcases hadds.new inst hi with hi | ⟨hmem, hnew⟩
      · exact Or.inl hi
      · exact Or.inr ⟨List.mem_cons.mpr (Or.inl (List.mem_singleton.mp hmem)), hnew⟩
    · exact Or.inr ⟨List.mem_cons_of_mem _ hmem, hnew⟩

/-! ## The rules of an instance -/

/-- The elements of a branch, in which names have been replaced. -/
def Elements (env : Bindings) (branch : Branch) : List Parameter :=
  branch.elements.map (Parameter.instantiate (Parameter.standsIn env))

/-- The rules of some branches of an instance have been added, and instances for what they mention.
-/
structure Covers (src : ExpansionSource) (owner source : Nat) (env : Bindings) (x : Expansion)
    (branches : List (Branch × Nat)) (y : Expansion) : Prop where
  grows : x.Grows y
  instances : ∀ inst ∈ y.instances, inst ∈ x.instances ∨
    src.token? inst.closed = none ∧ sourceOf src inst.closed = .ok inst.source ∧
      ∃ b ∈ branches, inst.closed ∈ Elements env b.1
  rules : ∀ r ∈ y.rules, r ∈ x.rules ∨ r.owner = owner ∧ r.source = source ∧
    ∃ b ∈ branches, b.2 = r.branch ∧ SymbolsOf src y (Elements env b.1) r.right
  complete : ∀ b ∈ branches, ∃ r ∈ y.rules, r.owner = owner ∧
    SymbolsOf src y (Elements env b.1) r.right

/-- A rule is there after it has been added, maybe as that of another branch. -/
theorem addRule_spec (x : Expansion) (closed : Parameter) (rule : InstanceRule) :
    x.Grows (x.addRule closed rule) ∧
      (x.addRule closed rule).instances = x.instances ∧
      (∀ r ∈ (x.addRule closed rule).rules, r ∈ x.rules ∨ r = rule) ∧
      ∃ r ∈ (x.addRule closed rule).rules, r.owner = rule.owner ∧ r.right = rule.right := by
  unfold addRule
  split
  · rename_i hany
    obtain ⟨r, hr, hsame⟩ := Array.any_eq_true'.mp hany
    simp only [Bool.and_eq_true, beq_iff_eq] at hsame
    exact ⟨⟨id, fun _ hr => hr⟩, rfl, fun _ hr => Or.inl hr, r, hr, hsame⟩
  · refine ⟨⟨id, fun _ hr => Array.mem_push_of_mem _ hr⟩, rfl, fun r hr => ?_, rule, ?_, rfl, rfl⟩
    · exact Array.mem_push.mp hr
    · exact Array.mem_push_self

/-- Branches that are expanded without an error are covered by rules. -/
theorem expandBranches_spec {branches : List (Branch × Nat)}
    (h : expandBranches src owner inst env x branches = (.ok (), y)) :
    x.Covers src owner inst.source env branches y := by
  induction branches generalizing x with
  | nil =>
    cases h
    exact ⟨.refl _, fun _ hi => Or.inl hi, fun _ hr => Or.inl hr, by simp⟩
  | cons entry rest ih =>
    obtain ⟨branch, b⟩ := entry
    obtain ⟨x', right, precedence, hresolve, _, hrun⟩ := exists_of_expandBranches_cons h
    obtain ⟨hadds, hsymbols⟩ := resolveAll_spec hresolve
    obtain ⟨hgrows, hinstances, hrules, added, hadded, howner, hright⟩ :=
      addRule_spec x' inst.closed ⟨inst.source, b, owner, right, precedence⟩
    have hrest := ih hrun
    have hy := hgrows.trans hrest.grows
    refine ⟨hadds.grows.trans hy, fun i hi => ?_, fun r hr => ?_, fun entry hentry => ?_⟩
    · rcases hrest.instances i hi with hi | ⟨htoken, hsource, entry, hentry, hmem⟩
      · rw [hinstances] at hi
        rcases hadds.new i hi with hi | ⟨hmem, htoken, hsource⟩
        · exact Or.inl hi
        · exact Or.inr ⟨htoken, hsource, _, List.mem_cons_self, hmem⟩
      · exact Or.inr ⟨htoken, hsource, entry, List.mem_cons_of_mem _ hentry, hmem⟩
    · rcases hrest.rules r hr with hr | ⟨ho, hs, entry, hentry, hbranch⟩
      · rcases hrules r hr with hr | rfl
        · exact Or.inl (hadds.rules ▸ hr)
        · exact Or.inr ⟨rfl, rfl, _, List.mem_cons_self, rfl, hy.symbolsOf hsymbols⟩
      · exact Or.inr ⟨ho, hs, entry, List.mem_cons_of_mem _ hentry, hbranch⟩
    · rcases List.mem_cons.mp hentry with rfl | hentry
      -- If the rule was dropped as a duplicate, `added` is the one that it repeats.
      · refine ⟨added, hrest.grows.rules _ hadded, howner, ?_⟩
        rw [hright]
        exact hy.symbolsOf hsymbols
      · exact hrest.complete entry hentry

/-! ## The whole expansion -/

/-- What the formal parameters of the rule of an instance are bound to. -/
def bindings (src : ExpansionSource) (inst : RuleInstance) : Bindings :=
  Bindings.ofLists (src.template.formalsOf inst.source) inst.closed.args

/-- What expanding an instance adds. -/
theorem expandInstance_spec (h : x.expandInstance src owner inst = (.ok (), y)) :
    x.Covers src owner inst.source (bindings src inst)
      (src.template.branchesOf inst.source).zipIdx y :=
  expandBranches_spec h

/-- The invariant of an expansion in which the instances before `next` have been expanded. -/
structure Sound (src : ExpansionSource) (x : Expansion) (next : Nat) : Prop where
  source : ∀ inst ∈ x.instances, src.token? inst.closed = none ∧
    sourceOf src inst.closed = .ok inst.source
  normal : ∀ inst ∈ x.instances, inst.closed.Normal
  reachable : ∀ inst ∈ x.instances, src.template.Reachable inst.closed
  rules : ∀ r ∈ x.rules, ∃ inst branch, x.instances[r.owner]? = some inst ∧
    r.source = inst.source ∧ (src.template.branchesOf inst.source)[r.branch]? = some branch ∧
    SymbolsOf src x (Elements (bindings src inst) branch) r.right
  complete : ∀ i < next, ∀ inst, x.instances[i]? = some inst →
    ∀ branch ∈ src.template.branchesOf inst.source, ∃ r ∈ x.rules, r.owner = i ∧
      SymbolsOf src x (Elements (bindings src inst) branch) r.right

/-- The invariant does not depend on what waits. -/
theorem Sound.popped {next : Nat} (h : x.Sound src next) (rest : WorkQueue Nat) :
    ({ x with queue := rest }).Sound src next :=
  ⟨h.source, h.normal, h.reachable, h.rules, h.complete⟩

/-- Expanding the next instance keeps the invariant. -/
theorem Sound.expandInstance (hnames : src.template.WellNamed) {next : Nat}
    (h : x.Sound src next) (hinst : x.instances[next]? = some inst)
    (hstep : x.expandInstance src next inst = (.ok (), y)) : y.Sound src (next + 1) := by
  have hcovers := expandInstance_spec hstep
  have hmem := Array.mem_of_getElem? hinst
  have hunfolds : ∀ b ∈ (src.template.branchesOf inst.source).zipIdx,
      src.template.Unfolds inst.closed (Elements (bindings src inst) b.1) := by
    intro b hb
    refine (unfolds_iff hnames (h.source inst hmem).2).mpr ⟨b.1, ?_, rfl⟩
    exact List.mem_of_getElem? (List.mem_zipIdx_iff_getElem?.mp hb)
  constructor
  case source =>
    intro i hi
    rcases hcovers.instances i hi with hi | ⟨htoken, hsource, _⟩
    · exact h.source i hi
    · exact ⟨htoken, hsource⟩
  case normal =>
    intro i hi
    rcases hcovers.instances i hi with hi | ⟨_, _, b, hb, hp⟩
    · exact h.normal i hi
    · exact (hunfolds b hb).normal (h.normal inst hmem) _ hp
  case reachable =>
    intro i hi
    rcases hcovers.instances i hi with hi | ⟨_, _, b, hb, hp⟩
    · exact h.reachable i hi
    · obtain ⟨name, hstart, hreach⟩ := h.reachable inst hmem
      exact ⟨name, hstart, hreach.tail ⟨_, hunfolds b hb, hp⟩⟩
  case rules =>
    intro r hr
    rcases hcovers.rules r hr with hr | ⟨rfl, hsource, b, hb, hnumber, hright⟩
    · obtain ⟨i, branch, hi, hsource, hbranch, hright⟩ := h.rules r hr
      exact ⟨i, branch, hcovers.grows.instances hi, hsource, hbranch,
        hcovers.grows.symbolsOf hright⟩
    · refine ⟨inst, b.1, hcovers.grows.instances hinst, hsource, ?_, hright⟩
      rw [← hnumber]
      exact List.mem_zipIdx_iff_getElem?.mp hb
  case complete =>
    intro i hi other hother branch hbranch
    rcases hcovers.grows.instance_cases hinst hi hother with ⟨hlt, hold⟩ | ⟨rfl, rfl⟩
    · obtain ⟨r, hr, howner, hright⟩ := h.complete i hlt other hold branch hbranch
      exact ⟨r, hcovers.grows.rules r hr, howner, hcovers.grows.symbolsOf hright⟩
    · obtain ⟨b, hb⟩ := List.mem_iff_getElem?.mp hbranch
      exact hcovers.complete (branch, b) (List.mem_zipIdx_iff_getElem?.mpr hb)

/-- What is left when an expansion has ended well. -/
structure Finished (src : ExpansionSource) (x : Expansion) : Prop where
  bounded : x.Bounded src.template x.instances.size
  sound : x.Sound src x.instances.size
  start : ∃ name, src.template.startName? = some name ∧ x.find? (.var name) = some 0

/-- An expansion begins with an instance of the start symbol. -/
theorem instances_begun {name : String} (h : empty.instantiate src (.var name) = (.ok i, x)) :
    i = 0 ∧ x.rules = #[] ∧
      ∃ source, sourceOf src (.var name) = .ok source ∧ x.instances = #[⟨.var name, source⟩] := by
  rcases instantiate_cases h with ⟨hfind, _⟩ | ⟨_, source, hsource, rfl, rfl⟩
  · simp [find?, empty] at hfind
  · exact ⟨rfl, rfl, source, hsource, rfl⟩

/-- The start instance is sound before any instance has been expanded. -/
theorem sound_begun (hnames : src.template.WellNamed) {name : String}
    (hstart : src.template.startName? = some name)
    (h : empty.instantiate src (.var name) = (.ok i, x)) : x.Sound src 0 := by
  obtain ⟨_, hrules, source, hsource, hinstances⟩ := instances_begun h
  obtain ⟨rule, hget, hname, _⟩ := exists_rule_of_sourceOf hsource
  have htoken : src.token? (.var name) = none :=
    ExpansionSource.token?_eq_none_of_rule hnames (List.mem_of_getElem? hget) hname.symm
  have hreach : src.template.Reachable (.var name) := ⟨name, hstart, .refl⟩
  constructor
  case rules => simp [hrules]
  case complete => simp
  all_goals
    intro inst hinst
    rw [hinstances, Array.mem_singleton] at hinst
    subst hinst
  case source => exact ⟨htoken, hsource⟩
  case normal => trivial
  case reachable => exact hreach

/-- What holds when an expansion begins, and is kept by each turn, holds when it has ended well. -/
theorem kept_of_expandAll {P : Expansion → Nat → Prop} (h : expandAll src = (.ok (), x))
    (hbegun : ∀ {name : String} {i : Nat} {x : Expansion}, src.template.startName? = some name →
      empty.instantiate src (.var name) = (.ok i, x) → P x 0)
    (hpop : ∀ {x : Expansion} {next : Nat} (rest : WorkQueue Nat), P x next →
      P { x with queue := rest } next)
    (hstep : ∀ {x y : Expansion} {next : Nat} {inst : RuleInstance}, P x next →
      x.instances[next]? = some inst → x.expandInstance src next inst = (.ok (), y) →
      P y (next + 1)) :
    x.Bounded src.template x.instances.size ∧
      (∃ name, src.template.startName? = some name ∧ x.find? (.var name) = some 0) ∧
      P x x.instances.size := by
  obtain ⟨_, hruns⟩ := runs_of_expandAll h
  cases hruns with
  | @begun name i begun visited _ hstart hinstantiate hturns =>
    obtain ⟨hbounded, hgrows, hlast⟩ := hturns.invariant
      (P := fun y next => begun.Grows y ∧ P y next)
      (fun rest ⟨hgrows, hkept⟩ => ⟨⟨hgrows.instances, hgrows.rules⟩, hpop rest hkept⟩)
      (fun ⟨hgrows, hkept⟩ hinst hrun =>
        ⟨hgrows.trans (expandInstance_spec hrun).grows, hstep hkept hinst hrun⟩)
      (bounded_begun hstart hinstantiate) ⟨.refl begun, hbegun hstart hinstantiate⟩
    obtain ⟨_, _, hfind, _⟩ := instantiate_spec hinstantiate
    obtain ⟨rfl, _⟩ := instances_begun hinstantiate
    exact ⟨hbounded, ⟨name, hstart, hgrows.find? hfind⟩, hlast⟩

/-- An expansion that ends without an error has expanded all its instances. -/
theorem finished_of_expandAll (hnames : src.template.WellNamed)
    (h : expandAll src = (.ok (), x)) : x.Finished src := by
  obtain ⟨hbounded, hstart, hlast⟩ := kept_of_expandAll (P := Sound src) h
    (fun hstart hbegun => sound_begun hnames hstart hbegun) (fun rest hsound => hsound.popped rest)
    fun hsound hinst hrun => hsound.expandInstance hnames hinst hrun
  exact ⟨hbounded, hlast, hstart⟩

/-! ## Expansions that may fail -/

/-- All instances are applications of the rules that their heads name. -/
def Sourced (src : ExpansionSource) (x : Expansion) : Prop :=
  ∀ inst ∈ x.instances, sourceOf src inst.closed = .ok inst.source

/-- A new instance is given the rule that its head names. -/
theorem Sourced.instantiate (h : x.Sourced src) (closed : Parameter) :
    (x.instantiate src closed).2.Sourced src := by
  simp only [Expansion.instantiate]
  split
  · exact h
  · split
    · exact h
    · rename_i hsource
      intro inst hinst
      rcases Array.mem_push.mp hinst with hinst | rfl
      · exact h inst hinst
      · exact hsource

theorem Sourced.resolve (h : x.Sourced src) (closed : Parameter) :
    (x.resolve src closed).2.Sourced src := by
  have hi := h.instantiate closed
  simp only [Expansion.resolve]
  split
  · exact h
  · split <;> simp_all

theorem Sourced.resolveAll (h : x.Sourced src) (ps : List Parameter) :
    (Expansion.resolveAll src env x ps).2.Sourced src := by
  induction ps generalizing x with
  | nil => exact h
  | cons p rest ih =>
    simp only [Expansion.resolveAll]
    split
    · exact h
    · rename_i closed _
      have hr := h.resolve closed
      split
      · rename_i hx
        rwa [hx] at hr
      · rename_i hx
        rw [hx] at hr
        have hrest := ih hr
        split <;> simp_all

/-- The instances that the branches of a rule ask for are given their rules, too. -/
theorem Sourced.expandBranches (h : x.Sourced src) (branches : List (Branch × Nat)) :
    (Expansion.expandBranches src owner inst env x branches).2.Sourced src := by
  induction branches generalizing x with
  | nil => exact h
  | cons entry rest ih =>
    have hr : (Expansion.resolveAll src env x entry.1.elements).2.Sourced src := h.resolveAll _
    simp only [Expansion.expandBranches]
    split
    · rename_i hx
      rwa [hx] at hr
    · rename_i hx
      rw [hx] at hr
      split
      · exact hr
      · refine ih fun other hother => ?_
        rw [(addRule_spec _ _ _).2.1] at hother
        exact hr other hother

/-- All instances of an expansion have the rules that their heads name, also after an error. -/
theorem sourced_expandAll (src : ExpansionSource) : (expandAll src).2.Sourced src :=
  expandAll_induction (fun _ hinst => absurd hinst (Array.not_mem_empty _))
    (fun _ => Sourced.instantiate (fun _ hinst => absurd hinst (Array.not_mem_empty _)) _)
    (fun _ hx => hx) fun hx _ => hx.expandBranches _

/-- No instance has the name of a token, also if an expansion fails. -/
theorem head_not_mem_of_mem_instances (hnames : src.template.WellNamed)
    (hinst : inst ∈ (expandAll src).2.instances) : inst.closed.head ∉ src.template.tokens := by
  obtain ⟨rule, hget, hname, _⟩ := exists_rule_of_sourceOf (sourced_expandAll src inst hinst)
  rw [← hname]
  exact hnames.not_mem_tokens (List.mem_of_getElem? hget)

/-! ## Expansions that end well -/

/-- An instance is found under its number. -/
theorem Bounded.find?_eq_some {next : Nat} (h : x.Bounded src.template next) {i : Nat}
    (hi : x.instances[i]? = some inst) : x.find? inst.closed = some i := by
  refine find?_eq_some_iff.mpr ⟨inst, hi, rfl, fun j hj other hother hclosed => ?_⟩
  have hlt : j < (x.instances.toList.map (·.closed)).length := by
    simpa using (Array.getElem?_eq_some_iff.mp hother).1
  have hsame : (x.instances.toList.map (·.closed))[j]? =
      (x.instances.toList.map (·.closed))[i]? := by
    simp [hother, hi, hclosed]
  exact Nat.ne_of_lt hj ((List.getElem?_inj hlt h.distinct).mp hsame)

namespace Finished

/-- What has an instance stands for the nonterminal of the instance. -/
theorem symbolOf?_of_find? (h : x.Finished src) (hi : x.find? closed = some i) :
    x.symbolOf? src closed = some (.nonterminal (i + 1)) := by
  obtain ⟨inst, hget, rfl, _⟩ := find?_eq_some_iff.mp hi
  rw [symbolOf?_of_not_token (h.sound.source inst (Array.mem_of_getElem? hget)).1, hi]
  rfl

/-- What an instance unfolds to has its rule. -/
theorem exists_rule_of_unfolds (h : x.Finished src) (hnames : src.template.WellNamed) {i : Nat}
    {elements : List Parameter} (hi : x.find? closed = some i)
    (hunfolds : src.template.Unfolds closed elements) :
    ∃ r ∈ x.rules, r.owner = i ∧ SymbolsOf src x elements r.right := by
  obtain ⟨inst, hget, rfl, _⟩ := find?_eq_some_iff.mp hi
  obtain ⟨hlt, _⟩ := Array.getElem?_eq_some_iff.mp hget
  obtain ⟨branch, hbranch, rfl⟩ :=
    (unfolds_iff hnames (h.sound.source inst (Array.mem_of_getElem? hget)).2).mp hunfolds
  exact h.sound.complete i hlt inst hget branch hbranch

/-- A rule is that of what its instance unfolds to. -/
theorem exists_unfolds_of_rule (h : x.Finished src) (hnames : src.template.WellNamed)
    {r : InstanceRule} (hr : r ∈ x.rules) :
    ∃ inst elements, x.instances[r.owner]? = some inst ∧
      src.template.Unfolds inst.closed elements ∧ SymbolsOf src x elements r.right := by
  obtain ⟨inst, branch, hget, _, hbranch, hright⟩ := h.sound.rules r hr
  refine ⟨inst, _, hget, ?_, hright⟩
  exact (unfolds_iff hnames (h.sound.source inst (Array.mem_of_getElem? hget)).2).mpr
    ⟨branch, List.mem_of_getElem? hbranch, rfl⟩

/-- Putting the rules in order neither adds nor drops one. -/
theorem mem_orderedRules (h : x.Finished src) {r : InstanceRule} :
    r ∈ x.orderedRules src.template ↔ r ∈ x.rules := by
  simp only [orderedRules, List.mem_flatMap, List.mem_filter, Array.mem_toList_iff]
  constructor
  · rintro ⟨_, _, _, _, hr, _⟩
    exact hr
  · intro hr
    obtain ⟨inst, branch, hget, hsource, hbranch, _⟩ := h.sound.rules r hr
    obtain ⟨rule, hrule, _⟩ :=
      exists_rule_of_sourceOf (h.sound.source inst (Array.mem_of_getElem? hget)).2
    rw [Template.branchesOf, hrule] at hbranch
    refine ⟨(rule, r.source), ?_, (branch, r.branch), ?_, hr, by simp⟩
    · rw [hsource]
      exact List.mem_zipIdx_iff_getElem?.mpr hrule
    · exact List.mem_zipIdx_iff_getElem?.mpr hbranch

/-- What can be reached from the start symbol has a symbol. -/
theorem exists_symbol_of_reachable (h : x.Finished src) (hnames : src.template.WellNamed)
    (hp : src.template.Reachable p) : ∃ s, x.symbolOf? src p = some s := by
  obtain ⟨name, hstart, hreach⟩ := hp
  induction hreach with
  | refl =>
    obtain ⟨_, hstart', hfind⟩ := h.start
    cases hstart.symm.trans hstart'
    exact ⟨_, h.symbolOf?_of_find? hfind⟩
  | tail _ hmentions ih =>
    obtain ⟨elements, hunfolds, hmem⟩ := hmentions
    obtain ⟨s, hs⟩ := ih
    -- What unfolds is not a token, so it is an instance, and all of those have been expanded.
    obtain ⟨i, hi, _⟩ :=
      find?_of_not_token (ExpansionSource.token?_eq_none_of_unfolds hnames hunfolds) hs
    obtain ⟨r, _, _, hright⟩ := h.exists_rule_of_unfolds hnames hi hunfolds
    exact hright.exists_symbol hmem

/-- The instances are what can be reached from the start symbol, tokens apart. -/
theorem exists_instance_iff (h : x.Finished src) (hnames : src.template.WellNamed) :
    (∃ inst ∈ x.instances, inst.closed = p) ↔
      src.template.Reachable p ∧ src.token? p = none := by
  constructor
  · rintro ⟨inst, hi, rfl⟩
    exact ⟨h.sound.reachable inst hi, (h.sound.source inst hi).1⟩
  · rintro ⟨hreach, htoken⟩
    obtain ⟨s, hs⟩ := h.exists_symbol_of_reachable hnames hreach
    obtain ⟨i, hi, _⟩ := find?_of_not_token htoken hs
    obtain ⟨inst, hget, hclosed, _⟩ := find?_eq_some_iff.mp hi
    exact ⟨inst, Array.mem_of_getElem? hget, hclosed⟩

end Finished

end Expansion
end ParserGen
