import ParserGen.Proofs.Template.Constraints

/-!
# Declarations

Declaring the rules of a template gives each formal parameter a variable of an unknown sort, and
each rule a variable for the arrow from those of its formal parameters.  It succeeds if the arena
has room and no name is declared twice, and then any sorting is a model of the new variables.

Main results:

- Theorem `Template.declareTokens_spec`: what it means that the tokens are declared.
- Theorem `Template.rulesDeclared`: what it means that the rules are declared.
- Theorem `Template.exists_declareTokens`, theorem `Template.exists_declareRules`: they are declared
  if no name is declared twice.
-/

namespace ParserGen
namespace Template

open SortArena

variable {a b c : SortArena} {globals globals' : Std.TreeMap String Nat}
  {locals : List (String × Nat)} {names : List String}

/-! ## Tables of names -/

theorem getElem?_insert (globals : Std.TreeMap String Nat) (name key : String) (v : Nat) :
    (globals.insert name v)[key]? = if name = key then some v else globals[key]? := by
  rw [Std.TreeMap.getElem?_insert]
  simp only [Std.compare_eq_iff_eq]

/-- No name is declared twice: not `name`, and not those that are declared after it. -/
theorem new_insert_iff {name : String} {v : Nat} :
    (∀ key ∈ names, (globals.insert name v)[key]? = none) ↔
      name ∉ names ∧ ∀ key ∈ names, globals[key]? = none := by
  simp only [getElem?_insert]
  constructor
  · intro h
    have hname : name ∉ names := fun hmem => by simpa using h name hmem
    refine ⟨hname, fun key hkey => ?_⟩
    have hne : name ≠ key := fun heq => hname (heq ▸ hkey)
    simpa only [if_neg hne] using h key hkey
  · rintro ⟨hname, h⟩ key hkey
    have hne : name ≠ key := fun heq => hname (heq ▸ hkey)
    rw [if_neg hne, h key hkey]

theorem declareGlobal_eq_ok {name : String} {v : Nat} :
    declareGlobal globals name v = .ok globals' ↔
      globals[name]? = none ∧ globals' = globals.insert name v := by
  unfold declareGlobal
  rw [Std.TreeMap.contains_eq_isSome_getElem?]
  cases globals[name]? <;> simp [eq_comm]

/-- Tokens are declared as variables for `*`. -/
theorem declareTokens_spec
    (h : names.foldlM (fun globals name => declareGlobal globals name star) globals =
      .ok globals') :
    names.Nodup ∧ (∀ name ∈ names, globals[name]? = none) ∧
      ∀ key, globals'[key]? = if key ∈ names then some star else globals[key]? := by
  induction names generalizing globals with
  | nil =>
    cases h
    simp
  | cons name names ih =>
    rw [List.foldlM_cons] at h
    obtain ⟨middle, hmiddle, h⟩ := exists_of_bind_eq_ok h
    obtain ⟨hnone, rfl⟩ := declareGlobal_eq_ok.mp hmiddle
    obtain ⟨hnodup, hnew, hget⟩ := ih h
    obtain ⟨hname, hnew⟩ := new_insert_iff.mp hnew
    refine ⟨List.nodup_cons.mpr ⟨hname, hnodup⟩, List.forall_mem_cons.mpr ⟨hnone, hnew⟩, ?_⟩
    intro key
    rw [hget, getElem?_insert]
    by_cases hkey : key = name
    · subst hkey
      simp
    · simp [hkey, Ne.symm hkey]

theorem exists_declareTokens (hnodup : names.Nodup)
    (hnew : ∀ name ∈ names, globals[name]? = none) :
    ∃ globals', names.foldlM (fun globals name => declareGlobal globals name star) globals =
      .ok globals' := by
  induction names generalizing globals with
  | nil => exact ⟨globals, rfl⟩
  | cons name names ih =>
    obtain ⟨hname, hnodup⟩ := List.nodup_cons.mp hnodup
    obtain ⟨hnone, hnew⟩ := List.forall_mem_cons.mp hnew
    obtain ⟨globals', hglobals'⟩ := ih hnodup (new_insert_iff.mpr ⟨hname, hnew⟩)
    refine ⟨globals', ?_⟩
    rw [List.foldlM_cons, declareGlobal_eq_ok.mpr ⟨hnone, rfl⟩]
    exact hglobals'

/-! ## Formal parameters -/

theorem isSome_lookup {name : String} :
    (locals.lookup name).isSome = true ↔ name ∈ locals.map (·.1) := by
  rw [List.lookup_isSome_iff]
  simp

/-- Formal parameters are declared as new variables. -/
theorem fresh_of_declareFormals {locals' : List (String × Nat)} (ha : a.WellFormed)
    (h : declareFormals a locals names = .ok (locals', b)) :
    ∃ new, locals' = locals ++ new ∧ new.map (·.1) = names ∧ Fresh a (new.map (·.2)) b ∧
      names.Nodup ∧ ∀ name ∈ names, name ∉ locals.map (·.1) := by
  induction names generalizing a locals with
  | nil =>
    cases h
    exact ⟨[], (List.append_nil _).symm, rfl, .nil ha, .nil, nofun⟩
  | cons name names ih =>
    obtain ⟨⟨v, middle⟩, hv, h⟩ := exists_of_bind_eq_ok h
    rw [freshVariable_eq_ok] at hv
    dsimp only at h
    split at h
    · cases h
    rename_i hname
    rw [isSome_lookup] at hname
    obtain ⟨new, rfl, hnames, hfresh, hnodup, hnew⟩ := ih (ha.fresh hv) h
    simp only [List.map_append, List.map_cons, List.map_nil, List.mem_append, List.mem_singleton,
      not_or] at hnew
    refine ⟨(name, v) :: new, by simp, by rw [List.map_cons, hnames], .cons ha hv hfresh, ?_, ?_⟩
    · exact List.nodup_cons.mpr ⟨fun hmem => (hnew name hmem).2 rfl, hnodup⟩
    · exact List.forall_mem_cons.mpr ⟨hname, fun key hkey => (hnew key hkey).1⟩

theorem exists_declareFormals (hroom : a.cells.size + names.length ≤ a.limit) (hnodup : names.Nodup)
    (hnew : ∀ name ∈ names, name ∉ locals.map (·.1)) :
    ∃ locals' b, declareFormals a locals names = .ok (locals', b) := by
  induction names generalizing a locals with
  | nil => exact ⟨locals, a, rfl⟩
  | cons name names ih =>
    obtain ⟨hname, hnodup⟩ := List.nodup_cons.mp hnodup
    obtain ⟨hlocals, hnew⟩ := List.forall_mem_cons.mp hnew
    rw [List.length_cons] at hroom
    obtain ⟨v, b, hb⟩ := exists_freshVariable (a := a) (by omega)
    obtain ⟨hsize, hlimit, _⟩ := size_allocate (freshVariable_eq_ok.mp hb)
    have hrest : ∀ key ∈ names, key ∉ (locals ++ [(name, v)]).map (·.1) := by
      intro key hkey
      simp only [List.map_append, List.map_cons, List.map_nil, List.mem_append, List.mem_singleton,
        not_or]
      exact ⟨hnew key hkey, fun heq => hname (heq ▸ hkey)⟩
    obtain ⟨locals', c, hc⟩ := ih (a := b) (by omega) hnodup hrest
    refine ⟨locals', c, ?_⟩
    rw [declareFormals, hb]
    change (if _ then _ else declareFormals b (locals ++ [(name, v)]) names) = _
    rw [if_neg (fun h => hlocals (isSome_lookup.mp h)), hc]

/-! ## Rules -/

/-- The variables of a rule and of its formal parameters. -/
structure RuleDeclared (globals : Std.TreeMap String Nat) (b : SortArena) (rule : TemplateRule)
    (locals : List (String × Nat)) : Prop where
  names : locals.map (·.1) = rule.formals
  lt : ∀ v ∈ locals.map (·.2), v < b.cells.size
  head : ∃ head, globals[rule.name]? = some head ∧ head < b.cells.size ∧
    ∀ ρ, b.Models ρ → ρ head = .arrow ((locals.map (·.2)).map ρ)

theorem RuleDeclared.refine {rule : TemplateRule} (h : RuleDeclared globals b rule locals)
    (hbc : Refines b c) : RuleDeclared globals c rule locals where
  names := h.names
  lt v hv := (h.lt v hv).trans_le hbc.size_le
  head := by
    obtain ⟨head, hget, hlt, hsort⟩ := h.head
    exact ⟨head, hget, hlt.trans_le hbc.size_le, fun ρ hρ => hsort ρ (hbc.models ρ hρ)⟩

/-- The formal parameters of a rule have the sorts of a sorting. -/
def FormalsHave (σ : Sorting) (ρ : Nat → GroundSort) (rule : TemplateRule)
    (locals : List (String × Nat)) : Prop :=
  ∀ formal ∈ locals, ρ formal.2 = σ.formal rule.name formal.1

/-- What it means that rules are declared: they have new names, their formal parameters differ, and
the sorts of the new variables are those of any sorting. -/
structure RulesDeclared (a : SortArena) (globals : Std.TreeMap String Nat)
    (rules : List TemplateRule) (b : SortArena) (globals' : Std.TreeMap String Nat)
    (formals : List (List (String × Nat))) : Prop extends Refines a b where
  size : b.cells.size = a.cells.size + (rules.map fun rule => rule.formals.length + 1).sum
  length : formals.length = rules.length
  names : (rules.map (·.name)).Nodup
  new : ∀ name ∈ rules.map (·.name), globals[name]? = none
  formals_nodup : ∀ rule ∈ rules, rule.formals.Nodup
  old : ∀ name, name ∉ rules.map (·.name) → globals'[name]? = globals[name]?
  rows : ∀ row ∈ rules.zip formals, RuleDeclared globals' b row.1 row.2
  extend : ∀ ρ σ, a.Models ρ → ∃ ρ', b.Models ρ' ∧ Set.EqOn ρ ρ' (Set.Iio a.cells.size) ∧
    ∀ row ∈ rules.zip formals, FormalsHave σ ρ' row.1 row.2

/-- The first of some rules is declared before the others. -/
theorem RulesDeclared.cons {rule : TemplateRule} {rules : List TemplateRule}
    {formals : List (List (String × Nat))} {head : Nat} (hnames : locals.map (·.1) = rule.formals)
    (hnodup : rule.formals.Nodup) (hshaped : Shaped a (locals.map (·.2)) head b)
    (hnone : globals[rule.name]? = none)
    (h : RulesDeclared b (globals.insert rule.name head) rules c globals' formals) :
    RulesDeclared a globals (rule :: rules) c globals' (locals :: formals) := by
  have hlength : (locals.map (·.2)).length = rule.formals.length := by
    rw [← hnames, List.length_map, List.length_map]
  obtain ⟨hrule, hnew⟩ := new_insert_iff.mp h.new
  -- No later rule has the name of this one, so the table keeps its variable.
  have hhead : globals'[rule.name]? = some head := by
    rw [h.old _ hrule, getElem?_insert, if_pos rfl]
  have hdeclared : RuleDeclared globals' c rule locals :=
    RuleDeclared.refine ⟨hnames, hshaped.lt, head, hhead, hshaped.shape_lt, hshaped.arrow⟩
      h.toRefines
  refine ⟨hshaped.toRefines.trans h.toRefines, ?_, ?_, ?_, ?_, ?_, ?_, ?_, ?_⟩
  · rw [h.size, hshaped.size, hlength, List.map_cons, List.sum_cons]
    omega
  · rw [List.length_cons, List.length_cons, h.length]
  · exact List.nodup_cons.mpr ⟨hrule, h.names⟩
  · exact List.forall_mem_cons.mpr ⟨hnone, hnew⟩
  · exact List.forall_mem_cons.mpr ⟨hnodup, h.formals_nodup⟩
  · intro name hname
    rw [List.map_cons, List.mem_cons, not_or] at hname
    rw [h.old name hname.2, getElem?_insert, if_neg (Ne.symm hname.1)]
  · rw [List.zip_cons_cons]
    exact List.forall_mem_cons.mpr ⟨hdeclared, h.rows⟩
  · intro ρ σ hρ
    obtain ⟨ρ₁, hρ₁, heq₁, hmap⟩ := hshaped.extend ρ (rule.formals.map (σ.formal rule.name)) hρ
      (by rw [List.length_map, hlength])
    obtain ⟨ρ₂, hρ₂, heq₂, hrows⟩ := h.extend ρ₁ σ hρ₁
    refine ⟨ρ₂, hρ₂, heq₁.trans (hshaped.eqOn heq₂), ?_⟩
    rw [List.zip_cons_cons]
    refine List.forall_mem_cons.mpr ⟨fun formal hformal => ?_, hrows⟩
    rw [← hnames, List.map_map, List.map_map] at hmap
    have hsort : ρ₁ formal.2 = σ.formal rule.name formal.1 :=
      List.map_inj_left.mp hmap formal hformal
    rw [← hsort, heq₂ (hshaped.lt _ (List.mem_map_of_mem hformal))]

theorem rulesDeclared {rules : List TemplateRule} {formals : List (List (String × Nat))}
    (ha : a.WellFormed) (h : declareRules a globals rules = .ok (b, globals', formals)) :
    RulesDeclared a globals rules b globals' formals := by
  induction rules generalizing a globals formals with
  | nil =>
    cases h
    exact ⟨.refl ha, rfl, rfl, .nil, nofun, nofun, fun _ _ => rfl, nofun,
      fun ρ _ hρ => ⟨ρ, hρ, fun _ _ => rfl, nofun⟩⟩
  | cons rule rules ih =>
    obtain ⟨⟨locals, a₁⟩, hlocals, h⟩ := exists_of_bind_eq_ok h
    obtain ⟨⟨head, a₂⟩, hhead, h⟩ := exists_of_bind_eq_ok h
    obtain ⟨middle, hmiddle, h⟩ := exists_of_bind_eq_ok h
    obtain ⟨⟨a₃, globals₃, others⟩, hrest, h⟩ := exists_of_bind_eq_ok h
    cases h
    obtain ⟨_, rfl, hnames, hfresh, hnodup, _⟩ := fresh_of_declareFormals ha hlocals
    have hshaped := hfresh.arrow (arrowVariable_eq_ok.mp hhead)
    obtain ⟨hnone, rfl⟩ := declareGlobal_eq_ok.mp hmiddle
    exact .cons hnames hnodup hshaped hnone (ih hshaped.wellFormed hrest)

theorem exists_declareRules {rules : List TemplateRule} (ha : a.WellFormed)
    (hroom : a.cells.size + (rules.map fun rule => rule.formals.length + 1).sum ≤ a.limit)
    (hnames : (rules.map (·.name)).Nodup)
    (hnew : ∀ name ∈ rules.map (·.name), globals[name]? = none)
    (hformals : ∀ rule ∈ rules, rule.formals.Nodup) :
    ∃ b globals' formals, declareRules a globals rules = .ok (b, globals', formals) := by
  induction rules generalizing a globals with
  | nil => exact ⟨a, globals, [], rfl⟩
  | cons rule rules ih =>
    rw [List.map_cons] at hnames hnew
    obtain ⟨hname, hnames⟩ := List.nodup_cons.mp hnames
    obtain ⟨hnone, hnew⟩ := List.forall_mem_cons.mp hnew
    obtain ⟨hnodup, hformals⟩ := List.forall_mem_cons.mp hformals
    rw [List.map_cons, List.sum_cons] at hroom
    have hfree : ∀ name ∈ rule.formals, name ∉ ([] : List (String × Nat)).map (·.1) := nofun
    obtain ⟨locals, a₁, hlocals⟩ := exists_declareFormals (a := a) (by omega) hnodup hfree
    obtain ⟨_, rfl, hkeys, hfresh, _, _⟩ := fresh_of_declareFormals ha hlocals
    have hlength : (locals.map (·.2)).length = rule.formals.length := by
      rw [← hkeys, List.length_map, List.length_map]
    have hsize := hfresh.size
    have hlimit := hfresh.limit
    obtain ⟨head, a₂, hhead⟩ := exists_arrowVariable (a := a₁) (by omega) (locals.map (·.2))
    have hshaped := hfresh.arrow (arrowVariable_eq_ok.mp hhead)
    have hsize' := hshaped.size
    have hlimit' := hshaped.limit
    have hglobal : declareGlobal globals rule.name head = .ok (globals.insert rule.name head) :=
      declareGlobal_eq_ok.mpr ⟨hnone, rfl⟩
    have hrest : ∀ key ∈ rules.map (·.name), (globals.insert rule.name head)[key]? = none :=
      new_insert_iff.mpr ⟨hname, hnew⟩
    obtain ⟨b, globals', others, hothers⟩ :=
      ih (a := a₂) hshaped.wellFormed (by omega) hnames hrest hformals
    refine ⟨b, globals', locals :: others, ?_⟩
    simp only [declareRules, hlocals, hhead, hglobal, hothers, bind, Except.bind]

end Template
end ParserGen
