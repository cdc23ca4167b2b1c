import ParserGen.Proofs.Grammar.Refusals

/-!
# Finished grammars are well-formed

However a grammar is defined, with refused declarations in between, its tables number what was
declared without a gap, in the order of the declarations that took effect.  No rule is there twice,
and names lead back to the symbols that have them.

Main results:

- Theorem `Definition.rows_accepted`: declarations that take effect get the numbers in order.
- Theorem `Definition.Named.declare`: names lead back to symbols, whatever is declared.
- Theorem `Definition.wellFormed_of_finish`: every finished grammar is well-formed.
-/

namespace ParserGen

/-! ## The declarations that take effect -/

namespace Definition

variable {d d' : Definition} {c : Declaration} {before cs : List Declaration} {n : Nat}
  {cause : DefinitionError}

/-- The declarations that take effect, each with its number. -/
def accepted (d : Definition) (cs : List Declaration) : List (Declaration × Nat) :=
  (cs.zip (d.declareEach cs).1).filterMap fun (c, result) => result.toOption.map (c, ·)

/-- A declaration that takes effect comes before those that take effect later. -/
theorem accepted_cons_of_ok (hd : d.declare c = (.ok n, d')) :
    d.accepted (c :: cs) = (c, n) :: d'.accepted cs := by
  rw [accepted, results_declareEach_cons, hd, List.zip_cons_cons, List.filterMap_cons]
  rfl

/-- A declaration that is refused is left out. -/
theorem accepted_cons_of_error (hd : d.declare c = (.error cause, d')) :
    d.accepted (c :: cs) = d'.accepted cs := by
  rw [accepted, results_declareEach_cons, hd, List.zip_cons_cons, List.filterMap_cons]
  rfl

/-- A refused declaration is not listed. -/
theorem Lists.refused (h : d.Lists cs) (hd : d.declare c = (.error cause, d')) : d'.Lists cs := by
  rw [refused_frame hd]
  exact ⟨h.terminals, h.nonterminals, h.rules, h.start⟩

/-- The declarations that take effect are listed. -/
theorem Lists.declareEach (h : d.Lists before) (cs : List Declaration) :
    (d.declareEach cs).2.Lists (before ++ (d.accepted cs).map Prod.fst) := by
  induction cs generalizing d before with
  | nil => simpa [accepted] using h
  | cons c cs ih =>
    rw [declareEach_cons]
    rcases hd : d.declare c with ⟨cause | n, d'⟩
    · rw [accepted_cons_of_error hd]
      exact ih (h.refused hd)
    · rw [accepted_cons_of_ok hd, List.map_cons, List.append_cons]
      exact ih (h.declare hd)

/-- What a kind of declaration declares gets the next number of that kind. -/
def Counts {β : Type} (kind : Declaration → Option β) : Prop :=
  ∀ {d d' : Definition} {before : List Declaration} {c : Declaration} {n : Nat} {v : β},
    d.Lists before → d.declare c = (.ok n, d') → kind c = some v →
      n = (before.filterMap kind).length + 1

/-- Terminals are numbered as they are declared. -/
theorem counts_terminal? : Counts Declaration.terminal? := by
  intro d d' before c n v h hd hc
  cases effect_of_declare hd with
  | nonterminal | rule | start => cases hc
  | terminal => rw [h.terminals.size_eq, List.length_cons]

/-- Nonterminals are numbered as they are declared. -/
theorem counts_nonterminal? : Counts Declaration.nonterminal? := by
  intro d d' before c n v h hd hc
  cases effect_of_declare hd with
  | terminal | rule | start => cases hc
  | nonterminal => rw [h.nonterminals.size_eq, List.length_cons]

/-- Rules are numbered as they are declared. -/
theorem counts_rule? : Counts Declaration.rule? := by
  intro d d' before c n v h hd hc
  cases effect_of_declare hd with
  | terminal | nonterminal | start => cases hc
  | rule =>
    obtain ⟨rules, hrules, hdeclared⟩ := h.rules
    rw [hrules.size_eq, ← hdeclared, List.length_map]

/-- Declarations that take effect get the numbers of their kind in order. -/
theorem rows_accepted {β : Type} {kind : Declaration → Option β} (hkind : Counts kind)
    (h : d.Lists before) (cs : List Declaration) :
    (d.accepted cs).filterMap (fun (c, n) => (kind c).map (n, ·)) =
      ((((d.accepted cs).map Prod.fst).filterMap kind).zipIdx
        ((before.filterMap kind).length + 1)).map Prod.swap := by
  induction cs generalizing d before with
  | nil => rfl
  | cons c cs ih =>
    rcases hd : d.declare c with ⟨cause | n, d'⟩
    · rw [accepted_cons_of_error hd]
      exact ih (h.refused hd)
    · rw [accepted_cons_of_ok hd, List.map_cons, List.filterMap_cons, List.filterMap_cons]
      have hrest := ih (h.declare hd)
      cases hv : kind c with
      | none =>
        rw [List.filterMap_append, List.filterMap_cons_none hv, List.filterMap_nil,
          List.append_nil] at hrest
        simpa only [hv, Option.map_none] using hrest
      | some v =>
        rw [List.filterMap_append, List.filterMap_cons_some hv, List.filterMap_nil,
          List.length_append, List.length_singleton] at hrest
        simp only [hv, Option.map_some, List.zipIdx_cons, List.map_cons, Prod.swap_prod_mk, hrest,
          hkind h hd hv]

/-- The number of what is declared counts what of its kind was declared before. -/
theorem number_eq_of_accepted {β : Type} {kind : Declaration → Option β} (hkind : Counts kind)
    (h : d.Lists before) {earlier later : List (Declaration × Nat)} {v : β}
    (hrows : d.accepted cs = earlier ++ (c, n) :: later) (hv : kind c = some v) :
    n = ((before ++ earlier.map Prod.fst).filterMap kind).length + 1 := by
  induction cs generalizing d before earlier with
  | nil => simp [accepted] at hrows
  | cons first cs ih =>
    rcases hd : d.declare first with ⟨cause | m, d'⟩
    · rw [accepted_cons_of_error hd] at hrows
      exact ih (h.refused hd) hrows
    · rw [accepted_cons_of_ok hd] at hrows
      cases earlier with
      | nil =>
        obtain ⟨hfirst, _⟩ := List.cons.inj hrows
        cases hfirst
        rw [List.map_nil, List.append_nil]
        exact hkind h hd hv
      | cons row rows =>
        obtain ⟨rfl, hrest⟩ := List.cons.inj hrows
        rw [List.map_cons, List.append_cons]
        exact ih (h.declare hd) hrest

/-! ## Names -/

/-- The name of a symbol that is not reserved, if it is in its table. -/
def declaredName? (d : Definition) : Symbol → Option String
  | .terminal t => if t = endOfInput then none else d.terminals[t]?.map (·.name)
  | .nonterminal n => if n = augmentedStart then none else d.nonterminals[n]?

/-- The names lead back to the symbols, and nothing is wrong with them. -/
structure Named (d : Definition) : Prop where
  names_iff : ∀ name x, d.names[name]? = some x ↔ d.declaredName? x = some name
  nameFault?_eq_none : ∀ name x, d.names[name]? = some x → nameFault? name = none

/-- At the beginning there are no names. -/
theorem named_initial : initial.Named where
  names_iff name x := by
    have hnone : initial.declaredName? x = none := by
      cases x with
      | terminal t =>
        by_cases ht : t = endOfInput
        · exact if_pos ht
        · simp [declaredName?, ht, initial, Ne.symm ht]
      | nonterminal n =>
        by_cases hn : n = augmentedStart
        · exact if_pos hn
        · simp [declaredName?, hn, initial, Ne.symm hn]
    rw [hnone]
    simp [initial]
  nameFault?_eq_none name x h := by simp [initial] at h

/-- A new symbol under a new name. -/
theorem Named.of_insert (h : d.Named) {name : String} {x : Symbol} (hfault : nameFault? name = none)
    (hname : d.names[name]? = none) (hx : d.declaredName? x = none)
    (hnames : d'.names = d.names.insert name x)
    (hdeclared : ∀ y, d'.declaredName? y = if y = x then some name else d.declaredName? y) :
    d'.Named := by
  have hrow : ∀ name' : String,
      d'.names[name']? = if name = name' then some x else d.names[name']? := by
    intro name'
    simp only [hnames, Std.TreeMap.getElem?_insert, Std.LawfulEqOrd.compare_eq_iff_eq]
  constructor
  · intro name' y
    rw [hrow, hdeclared]
    by_cases hy : y = x
    · subst hy
      rw [if_pos rfl]
      by_cases hsame : name = name'
      · simp [hsame]
      · rw [if_neg hsame, h.names_iff, hx]
        simpa using hsame
    · rw [if_neg hy]
      by_cases hsame : name = name'
      · subst hsame
        rw [if_pos rfl, ← h.names_iff, hname]
        simpa using Ne.symm hy
      · rw [if_neg hsame, h.names_iff]
  · intro name' y hy
    rw [hrow] at hy
    by_cases hsame : name = name'
    · exact hsame ▸ hfault
    · rw [if_neg hsame] at hy
      exact h.nameFault?_eq_none name' y hy

/-- Symbols that are declared get numbers that are not reserved and not in use. -/
theorem Lists.declaredName?_next (h : d.Lists cs) :
    d.terminals.size ≠ endOfInput ∧ d.terminals[d.terminals.size]? = none ∧
      d.nonterminals.size ≠ augmentedStart ∧ d.nonterminals[d.nonterminals.size]? = none := by
  refine ⟨?_, ?_, ?_, ?_⟩
  · rw [h.terminals.size_eq]
    exact Nat.succ_ne_zero _
  · simpa only [Nat.zero_add] using h.terminals.getElem?_next
  · rw [h.nonterminals.size_eq]
    exact Nat.succ_ne_zero _
  · simpa only [Nat.zero_add] using h.nonterminals.getElem?_next

/-- A declaration, accepted or refused, keeps the names in order. -/
theorem Named.declare (h : d.Named) (hlists : d.Lists before) (c : Declaration) :
    (d.declare c).2.Named := by
  obtain ⟨hterminal, hfreshterminal, hnonterminal, hfreshnonterminal⟩ := hlists.declaredName?_next
  rcases hd : d.declare c with ⟨cause | n, d'⟩
  · rw [refused_frame hd]
    exact ⟨h.names_iff, h.nameFault?_eq_none⟩
  · cases effect_of_declare hd with
    | terminal _ hfault hname =>
      refine h.of_insert (x := .terminal d.terminals.size) hfault hname ?_ rfl fun y => ?_
      · rw [declaredName?, if_neg hterminal, hfreshterminal, Option.map_none]
      · cases y with
        | terminal t =>
          simp only [declaredName?, IndexMap.getElem?_insert, Symbol.terminal.injEq]
          by_cases ht : t = d.terminals.size
          · simp [ht, hterminal]
          · simp [ht, Ne.symm ht]
        | nonterminal n => simp [declaredName?]
    | nonterminal hfault hname =>
      refine h.of_insert (x := .nonterminal d.nonterminals.size) hfault hname ?_ rfl fun y => ?_
      · rw [declaredName?, if_neg hnonterminal, hfreshnonterminal]
      · cases y with
        | terminal t => simp [declaredName?]
        | nonterminal n =>
          simp only [declaredName?, IndexMap.getElem?_insert, Symbol.nonterminal.injEq]
          by_cases hn : n = d.nonterminals.size
          · simp [hn, hnonterminal]
          · simp [hn, Ne.symm hn]
    | rule => exact ⟨h.names_iff, h.nameFault?_eq_none⟩
    | start => exact ⟨h.names_iff, h.nameFault?_eq_none⟩

/-! ## Rules -/

/-- The rules have been noted, and no two of them have the same sides. -/
structure Distinct (d : Definition) : Prop where
  notes : ∀ {k : Nat} {r : Rule}, d.rules[k]? = some r → d.Notes r.left r.right
  eq_of_sides : ∀ {k k' : Nat} {r r' : Rule}, d.rules[k]? = some r → d.rules[k']? = some r' →
    r.left = r'.left → r.right = r'.right → k = k'

/-- At the beginning there are no rules. -/
theorem distinct_initial : initial.Distinct where
  notes h := by simp [initial] at h
  eq_of_sides h := by simp [initial] at h

/-- Noting more sides does not make rules alike. -/
theorem Distinct.of_rules_eq (h : d.Distinct) (hrules : d'.rules = d.rules)
    (hnotes : ∀ left right, d.Notes left right → d'.Notes left right) : d'.Distinct where
  notes hr := hnotes _ _ (h.notes (hrules ▸ hr))
  eq_of_sides hr hr' := h.eq_of_sides (hrules ▸ hr) (hrules ▸ hr')

/-- A declaration, accepted or refused, keeps the rules distinct. -/
theorem Distinct.declare (h : d.Distinct) (c : Declaration) : (d.declare c).2.Distinct := by
  have hnotes : ∀ left right, d.Notes left right → (d.declare c).2.Notes left right :=
    fun left right hleft => notes_declare_iff.mpr (Or.inl hleft)
  rcases hd : d.declare c with ⟨cause | n, d'⟩
  · rw [hd] at hnotes
    exact h.of_rules_eq (by rw [refused_frame hd]) hnotes
  · rw [hd] at hnotes
    cases effect_of_declare hd with
    | terminal => exact h.of_rules_eq rfl hnotes
    | nonterminal => exact h.of_rules_eq rfl hnotes
    | start => exact h.of_rules_eq rfl hnotes
    | @rule left right precedence hnew =>
      constructor
      · intro k r hr
        rcases IndexMap.of_getElem?_insert hr with ⟨rfl, rfl⟩ | hr
        · exact notes_noting_iff.mpr (Or.inl ⟨rfl, rfl⟩)
        · exact hnotes _ _ (h.notes hr)
      · intro k k' r r' hr hr' hleft hright
        rcases IndexMap.of_getElem?_insert hr with ⟨rfl, rfl⟩ | hr
        · rcases IndexMap.of_getElem?_insert hr' with ⟨rfl, rfl⟩ | hr'
          · rfl
          · have hsame := h.notes hr'
            rw [← hleft, ← hright] at hsame
            exact absurd hsame hnew
        · rcases IndexMap.of_getElem?_insert hr' with ⟨rfl, rfl⟩ | hr'
          · have hsame := h.notes hr
            rw [hleft, hright] at hsame
            exact absurd hsame hnew
          · exact h.eq_of_sides hr hr' hleft hright

end Definition

/-! ## Finished grammars -/

namespace Grammar

/-- The rules after the augmented rule are the declared ones, in the order of their declaration. -/
theorem Declares.getElem?_rules {g : Grammar} {cs : List Declaration} (h : g.Declares cs)
    (haugmented : g.Augmented) (k : Nat) :
    g.rules[k + 1]? = (cs.filterMap Declaration.rule?)[k]?.map (Rule.numbered (k + 1)) := by
  obtain ⟨rules, hdeclared, hnumbers⟩ := h.rules
  have hget := hnumbers.getElem?_add (k + 1)
  rw [Nat.zero_add, List.getElem?_cons_succ] at hget
  rw [← hdeclared, List.getElem?_map, Option.map_map, hget]
  cases hr : rules[k]? with
  | none => rfl
  | some r =>
    rw [hr] at hget
    rw [Option.map_some, Function.comp_apply, ← haugmented.eq_numbered hget]

/-- Whether a symbol has been declared: it is known and not reserved. -/
def IsDeclared (g : Grammar) (x : Symbol) : Prop :=
  g.knows x = true ∧ x ≠ .terminal endOfInput ∧ x ≠ .nonterminal augmentedStart

/-- What holds of a grammar that has been finished, given the declarations that took effect with the
numbers they resulted in. -/
structure WellFormed (g : Grammar) (accepted : List (Declaration × Nat)) : Prop where
  /-- The reserved terminal is followed by the declared ones, in the order of their declaration. -/
  terminals : g.terminals.toList =
    (endOfInput, ⟨"$eoi", none⟩) :: accepted.filterMap fun (c, n) => c.terminal?.map (n, ·)
  terminal_numbers : g.terminals.keys = List.range g.terminals.size
  nonterminals : g.nonterminals.toList =
    (augmentedStart, "$start") :: accepted.filterMap fun (c, n) => c.nonterminal?.map (n, ·)
  nonterminal_numbers : g.nonterminals.keys = List.range g.nonterminals.size
  /-- The augmented rule is followed by the declared ones, in the order of their declaration. -/
  rules : g.rules.toList =
    (augmentedRule, ⟨augmentedRule, augmentedStart, [.nonterminal g.start], none, 0⟩) ::
      accepted.filterMap fun (c, n) => c.rule?.map fun x => (n, .numbered n x)
  rule_numbers : g.rules.keys = List.range g.rules.size
  /-- The rules are listed in the order of their numbers, the augmented rule at place zero. -/
  place_eq : ∀ (k : Nat) r, g.ruleList[k]? = some r → r.id = k
  /-- What is stored as the place of a rule in the order of declaration is its number. -/
  order_eq : ∀ r ∈ g.ruleList, r.order = r.id
  /-- The number of a declared rule is its place in the order of declaration, from one. -/
  number_eq : ∀ earlier c n later, accepted = earlier ++ (c, n) :: later → c.rule?.isSome →
    n = ((earlier.map Prod.fst).filterMap Declaration.rule?).length + 1
  eq_of_sides : ∀ r ∈ g.ruleList, ∀ r' ∈ g.ruleList, r.id ≠ augmentedRule →
    r'.id ≠ augmentedRule → r.left = r'.left → r.right = r'.right → r = r'
  start : g.IsDeclared (.nonterminal g.start)
  eq_of_names : ∀ x y, g.knows x = true → g.knows y = true → g.symbolName x = g.symbolName y → x = y
  nameFault?_eq_none : ∀ x, g.IsDeclared x → nameFault? (g.symbolName x) = none
  terminalNamed?_iff : ∀ name t,
    g.terminalNamed? name = some t ↔ g.IsDeclared (.terminal t) ∧ g.symbolName (.terminal t) = name
  nonterminalNamed?_iff : ∀ name n, g.nonterminalNamed? name = some n ↔
    g.IsDeclared (.nonterminal n) ∧ g.symbolName (.nonterminal n) = name

/-- A symbol has a name if it is known. -/
theorem name?_eq_some_iff {g : Grammar} {x : Symbol} {name : String} :
    g.name? x = some name ↔ g.knows x = true ∧ g.symbolName x = name := by
  have hknows : g.knows x = (g.name? x).isSome := by
    cases x with
    | terminal t =>
      rw [knows, name?, Option.isSome_map, IndexMap.contains_eq_isSome_getElem?]
    | nonterminal n => rw [knows, name?, IndexMap.contains_eq_isSome_getElem?]
  rw [hknows, symbolName]
  cases g.name? x <;> simp

end Grammar

namespace Definition

variable {d : Definition} {cs : List Declaration} {g : Grammar}

/-- The rows of a table of what is declared after a reserved value. -/
theorem toList_eq_accepted {β : Type} {kind : Declaration → Option β} (hkind : Counts kind)
    {table : IndexMap β} {reserved : β} {cs : List Declaration}
    (h : Numbers table 0
      (reserved :: ((initial.accepted cs).map Prod.fst).filterMap kind)) :
    table.toList =
      (0, reserved) :: (initial.accepted cs).filterMap fun (c, n) => (kind c).map (n, ·) := by
  rw [h.toList_eq, rows_accepted hkind lists_initial cs]
  rfl

/-- Finishing keeps the tables of symbols and names. -/
theorem tables_of_finish (hg : d.finish = .ok g) :
    g.terminals = d.terminals ∧ g.nonterminals = d.nonterminals ∧ g.names = d.names ∧
      ∀ k ≠ augmentedRule, g.rules[k]? = d.rules[k]? := by
  unfold finish at hg
  split at hg
  · cases hg
  · cases hg
    refine ⟨rfl, rfl, rfl, fun k hk => ?_⟩
    rw [IndexMap.getElem?_sortKeys, IndexMap.getElem?_insert, if_neg hk.symm]

/-- After every declaration the tables list the declarations that took effect. -/
theorem Lists.exists_declare {before : List Declaration} (h : d.Lists before) (c : Declaration) :
    ∃ after, (d.declare c).2.Lists after := by
  rcases hd : d.declare c with ⟨cause | n, d'⟩
  · exact ⟨before, h.refused hd⟩
  · exact ⟨_, h.declare hd⟩

/-- After any declarations the names are in order. -/
theorem named_declareEach (cs : List Declaration) : (initial.declareEach cs).2.Named := by
  have hstep : ∀ (d : Definition) c, (∃ before, d.Lists before) ∧ d.Named →
      (∃ before, (d.declare c).2.Lists before) ∧ (d.declare c).2.Named := by
    rintro d c ⟨⟨before, hlists⟩, hnamed⟩
    exact ⟨hlists.exists_declare c, hnamed.declare hlists c⟩
  exact (declareEach_induction hstep ⟨⟨[], lists_initial⟩, named_initial⟩ cs).2

/-- The declared names, seen from the finished grammar. -/
theorem declaredName?_iff_of_finish (hg : d.finish = .ok g) {x : Symbol} {name : String} :
    d.declaredName? x = some name ↔ g.IsDeclared x ∧ g.symbolName x = name := by
  obtain ⟨hterminals, hnonterminals, _⟩ := tables_of_finish hg
  have hname : d.declaredName? x = some name ↔
      (x ≠ .terminal endOfInput ∧ x ≠ .nonterminal augmentedStart) ∧ g.name? x = some name := by
    cases x with
    | terminal t =>
      rw [Grammar.name?, hterminals, declaredName?]
      by_cases ht : t = endOfInput <;> simp [ht]
    | nonterminal n =>
      rw [Grammar.name?, hnonterminals, declaredName?]
      by_cases hn : n = augmentedStart <;> simp [hn]
  rw [hname, Grammar.name?_eq_some_iff, Grammar.IsDeclared]
  tauto

/-- A name leads to the declared symbol that has it. -/
theorem names_iff_of_finish (hg : (initial.declareEach cs).2.finish = .ok g) {x : Symbol}
    {name : String} : g.names[name]? = some x ↔ g.IsDeclared x ∧ g.symbolName x = name := by
  obtain ⟨_, _, hnames, _⟩ := tables_of_finish hg
  rw [hnames, (named_declareEach cs).names_iff, declaredName?_iff_of_finish hg]

/-- Nothing is wrong with the name of a declared symbol. -/
theorem nameFault?_of_finish (hg : (initial.declareEach cs).2.finish = .ok g) {x : Symbol}
    (hx : g.IsDeclared x) : nameFault? (g.symbolName x) = none := by
  refine (named_declareEach cs).nameFault?_eq_none _ x ?_
  rw [(named_declareEach cs).names_iff, declaredName?_iff_of_finish hg]
  exact ⟨hx, rfl⟩

/-- What is known and not declared is reserved. -/
theorem reserved_of_not_isDeclared {x : Symbol} (hx : g.knows x = true) (hnot : ¬ g.IsDeclared x) :
    x = .terminal endOfInput ∨ x = .nonterminal augmentedStart := by
  by_contra hneither
  rw [not_or] at hneither
  exact hnot ⟨hx, hneither⟩

/-- No two known symbols share a name. -/
theorem eq_of_names_of_finish (hg : (initial.declareEach cs).2.finish = .ok g) {x y : Symbol}
    (hx : g.knows x = true) (hy : g.knows y = true) (hname : g.symbolName x = g.symbolName y) :
    x = y := by
  have hdeclares := (lists_initial.declareEach cs).finish hg
  have heoi : g.symbolName (.terminal endOfInput) = "$eoi" := by
    have hrow := hdeclares.terminals.getElem?_add 0
    rw [Nat.zero_add] at hrow
    rw [Grammar.symbolName, Grammar.name?, endOfInput, hrow]
    rfl
  have hstart : g.symbolName (.nonterminal augmentedStart) = "$start" := by
    have hrow := hdeclares.nonterminals.getElem?_add 0
    rw [Nat.zero_add] at hrow
    rw [Grammar.symbolName, Grammar.name?, augmentedStart, hrow]
    rfl
  -- A declared name does not begin like the reserved ones.
  have hapart : ∀ {x y : Symbol}, g.IsDeclared x → g.knows y = true → ¬ g.IsDeclared y →
      g.symbolName x ≠ g.symbolName y := by
    intro x y hx hy hnot hsame
    have hgood := nameFault?_of_finish hg hx
    rw [hsame] at hgood
    rcases reserved_of_not_isDeclared hy hnot with rfl | rfl
    · rw [heoi] at hgood
      exact absurd hgood (by decide +kernel)
    · rw [hstart] at hgood
      exact absurd hgood (by decide +kernel)
  by_cases hxd : g.IsDeclared x
  · by_cases hyd : g.IsDeclared y
    · have hleads := (names_iff_of_finish hg).mpr ⟨hxd, hname⟩
      exact Option.some.inj (hleads.symm.trans ((names_iff_of_finish hg).mpr ⟨hyd, rfl⟩))
    · exact absurd hname (hapart hxd hy hyd)
  · by_cases hyd : g.IsDeclared y
    · exact absurd hname.symm (hapart hyd hx hxd)
    · rcases reserved_of_not_isDeclared hx hxd with rfl | rfl <;>
        rcases reserved_of_not_isDeclared hy hyd with rfl | rfl
      · rfl
      · rw [heoi, hstart] at hname
        exact absurd hname (by decide)
      · rw [heoi, hstart] at hname
        exact absurd hname (by decide)
      · rfl

/-- No two declared rules have the same sides. -/
theorem eq_of_sides_of_finish (hg : (initial.declareEach cs).2.finish = .ok g) {r r' : Rule}
    (hr : r ∈ g.ruleList) (hr' : r' ∈ g.ruleList) (hid : r.id ≠ augmentedRule)
    (hid' : r'.id ≠ augmentedRule) (hleft : r.left = r'.left) (hright : r.right = r'.right) :
    r = r' := by
  have haugmented :=
    (declareEach_induction (fun _ c h => h.declare c) numbered_initial cs).finish hg
  have hdistinct := declareEach_induction (fun _ c h => h.declare c) distinct_initial cs
  obtain ⟨_, _, _, hrules⟩ := tables_of_finish hg
  have hrow := haugmented.mem_ruleList.mp hr
  have hrow' := haugmented.mem_ruleList.mp hr'
  rw [hrules _ hid] at hrow
  rw [hrules _ hid'] at hrow'
  exact haugmented.eq_of_id_eq hr hr' (hdistinct.eq_of_sides hrow hrow' hleft hright)

/-- The rows of the table of rules. -/
theorem rules_toList_of_finish (hg : (initial.declareEach cs).2.finish = .ok g) :
    g.rules.toList =
      (augmentedRule, ⟨augmentedRule, augmentedStart, [.nonterminal g.start], none, 0⟩) ::
        (initial.accepted cs).filterMap fun (c, n) => c.rule?.map fun x => (n, .numbered n x) := by
  have haugmented :=
    (declareEach_induction (fun _ c h => h.declare c) numbered_initial cs).finish hg
  obtain ⟨rules, hdeclared, hnumbers⟩ := ((lists_initial.declareEach cs).finish hg).rules
  have hid : ∀ row ∈ rules.zipIdx 1, row.1 = Rule.numbered row.2 row.1.declared := by
    rintro ⟨r, k⟩ hrow
    obtain ⟨hle, hk⟩ := List.mk_mem_zipIdx_iff_le_and_getElem?_sub.mp hrow
    have hlookup := hnumbers.getElem?_add k
    rw [← Nat.sub_add_cancel hle, List.getElem?_cons_succ, hk, Nat.zero_add] at hlookup
    have hnumber := haugmented.eq_numbered hlookup
    rwa [Nat.sub_add_cancel hle] at hnumber
  have hrows : (initial.accepted cs).filterMap
      (fun (c, n) => c.rule?.map fun x => (n, Rule.numbered n x)) =
        ((initial.accepted cs).filterMap fun (c, n) => c.rule?.map (n, ·)).map
          fun (n, x) => (n, Rule.numbered n x) := by
    simp only [List.map_filterMap, Option.map_map]
    rfl
  rw [hnumbers.toList_eq, hrows, rows_accepted counts_rule? lists_initial cs]
  rw [List.nil_append] at hdeclared
  rw [← hdeclared, List.zipIdx_map]
  simp only [List.zipIdx_cons, List.map_cons, List.map_map]
  refine congrArg _ (List.map_congr_left fun row hrow => ?_)
  exact congrArg (Prod.mk row.2) (hid row hrow)

/-- Whatever is declared in whatever order, refused declarations included, a grammar that the
definition is finished to is well-formed: without gaps and in the order of declaration its tables
hold what took effect, its rules are distinct, and its names lead back to its symbols. -/
theorem wellFormed_of_finish (hg : (initial.declareEach cs).2.finish = .ok g) :
    g.WellFormed (initial.accepted cs) := by
  have haugmented :=
    (declareEach_induction (fun _ c h => h.declare c) numbered_initial cs).finish hg
  have hadmissible :=
    (declareEach_induction (fun _ c h => h.declare c) admissible_initial cs).finish hg
  have hdeclares := (lists_initial.declareEach cs).finish hg
  obtain ⟨rules, _, hnumbers⟩ := hdeclares.rules
  have hstart : g.start ∈ g.nonterminals := hadmissible.2
  constructor
  · exact toList_eq_accepted counts_terminal? hdeclares.terminals
  · rw [hdeclares.terminals.keys_eq, hdeclares.terminals.size_eq, List.range_eq_range']
  · exact toList_eq_accepted counts_nonterminal? hdeclares.nonterminals
  · rw [hdeclares.nonterminals.keys_eq, hdeclares.nonterminals.size_eq, List.range_eq_range']
  · exact rules_toList_of_finish hg
  · rw [hnumbers.keys_eq, hnumbers.size_eq, List.range_eq_range']
  · intro k r hr
    rw [Grammar.ruleList, hnumbers.values_eq, ← hnumbers.getElem?_add, Nat.zero_add] at hr
    exact haugmented.id_eq hr
  · exact fun r hr => haugmented.order_eq (haugmented.mem_ruleList.mp hr)
  · intro earlier c n later hrows hc
    obtain ⟨x, hx⟩ := Option.isSome_iff_exists.mp hc
    exact number_eq_of_accepted counts_rule? lists_initial hrows hx
  · exact fun r hr r' hr' => eq_of_sides_of_finish hg hr hr'
  · refine ⟨IndexMap.contains_iff_mem.mpr hstart, by simp, fun heq => ?_⟩
    exact haugmented.start_ne (Symbol.nonterminal.inj heq)
  · exact fun x y => eq_of_names_of_finish hg
  · exact fun x => nameFault?_of_finish hg
  · intro name t
    rw [Grammar.terminalNamed?, ← names_iff_of_finish hg]
    rcases g.names[name]? with _ | ⟨_ | _⟩ <;> simp [Symbol.terminal?]
  · intro name n
    rw [Grammar.nonterminalNamed?, ← names_iff_of_finish hg]
    rcases g.names[name]? with _ | ⟨_ | _⟩ <;> simp [Symbol.nonterminal?]

/-- Declarations of which every second one or so is refused. -/
def interrupted : List Declaration :=
  [.start 1, .terminal "" none, .terminal "x" none, .nonterminal "x", .nonterminal "S",
    .nonterminal "$T", .rule 1 [.terminal 1] none, .rule 1 [.terminal 1] none, .rule 1 [] none]

theorem wellFormed_of_finish_interrupted :
    ∃ g, (initial.declareEach interrupted).2.finish = .ok g ∧
      initial.accepted interrupted =
        [(.terminal "x" none, 1), (.nonterminal "S", 1), (.rule 1 [.terminal 1] none, 1),
          (.rule 1 [] none, 2)] ∧
      g.WellFormed (initial.accepted interrupted) := by
  have hfinishes : (initial.declareEach interrupted).2.finish.isOk = true := by decide +kernel
  cases hg : (initial.declareEach interrupted).2.finish with
  | error cause =>
    rw [hg] at hfinishes
    cases hfinishes
  | ok g => exact ⟨g, rfl, by decide +kernel, wellFormed_of_finish hg⟩

end Definition
end ParserGen
