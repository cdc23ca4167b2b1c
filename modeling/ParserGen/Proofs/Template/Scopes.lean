import ParserGen.Proofs.Template.Declarations

/-!
# The scopes of a declared template

After the declarations each name of a template has a variable.  A sorting of the template and a
model of the arena say the same if the variables of the rules and formal parameters have the sorts
of the sorting: then every name has the same sort in scope and in the template.

Main results:

- Theorem `Template.Declared.fits`: the names in a rule have variables of the arena.
- Theorem `Template.Declared.knows_iff`: the names in scope are those that are declared.
- Theorem `Template.Declared.env_eq`: names have the same sorts in scope and in the template.
- Theorem `Template.Declared.realizes_sortingOf`: every model realizes a sorting.
-/

namespace ParserGen
namespace Template

open SortArena

variable {t : Template} {a : SortArena} {base globals : Std.TreeMap String Nat}
  {formals : List (List (String × Nat))} {locals : List (String × Nat)} {rule : TemplateRule}
  {name : String} {v : Nat} {σ : Sorting} {ρ : Nat → GroundSort}

/-! ## Names in scope -/

/-- A local name is found before the global ones. -/
theorem Scope.find_of_mem (hnodup : (locals.map (·.1)).Nodup) (hmem : (name, v) ∈ locals) :
    Scope.find ⟨globals, locals⟩ name = .ok v := by
  unfold Scope.find
  rw [(lookup_eq_some_iff_mem hnodup).mpr hmem]

/-- Names that no formal parameter hides are looked up outside. -/
theorem Scope.find_of_not_mem (hname : name ∉ locals.map (·.1)) :
    Scope.find ⟨globals, locals⟩ name = Scope.find ⟨globals, []⟩ name := by
  have hnone : locals.lookup name = none := by
    rw [← Option.not_isSome_iff_eq_none, isSome_lookup]
    exact hname
  simp only [Scope.find, hnone, List.lookup_nil]

/-- All names of a template are declared, the tokens before the rules. -/
structure Declared (t : Template) (base : Std.TreeMap String Nat) (a : SortArena)
    (globals : Std.TreeMap String Nat) (formals : List (List (String × Nat))) : Prop where
  tokens_nodup : t.tokens.Nodup
  tokens : ∀ key, base[key]? = if key ∈ t.tokens then some star else none
  rules : RulesDeclared initial base t.rules a globals formals

/-! ## Sortings and models -/

/-- The variables of the rules and formal parameters have the sorts of a sorting. -/
structure Realizes (t : Template) (globals : Std.TreeMap String Nat)
    (formals : List (List (String × Nat))) (ρ : Nat → GroundSort) (σ : Sorting) : Prop where
  rules : ∀ name ∈ t.ruleNames, Scope.env ⟨globals, []⟩ ρ name = σ.rule name
  formals : ∀ row ∈ t.rules.zip formals, FormalsHave σ ρ row.1 row.2

/-- The sorting that a model realizes. -/
def sortingOf (t : Template) (globals : Std.TreeMap String Nat)
    (formals : List (List (String × Nat))) (ρ : Nat → GroundSort) : Sorting where
  rule := Scope.env ⟨globals, []⟩ ρ
  formal rule := Scope.env ⟨∅, ((t.ruleNames.zip formals).lookup rule).getD []⟩ ρ

namespace Declared

/-! ## Variables of names -/

/-- Every rule has variables for its formal parameters. -/
theorem exists_row (h : t.Declared base a globals formals) (hrule : rule ∈ t.rules) :
    ∃ locals, (rule, locals) ∈ t.rules.zip formals := by
  have hzip : (t.rules.zip formals).map (·.1) = t.rules :=
    List.map_fst_zip (Nat.le_of_eq h.rules.length.symm)
  rw [← hzip] at hrule
  obtain ⟨⟨_, locals⟩, hrow, rfl⟩ := List.mem_map.mp hrule
  exact ⟨locals, hrow⟩

/-- The local names of a rule are its formal parameters. -/
theorem keys_eq (h : t.Declared base a globals formals)
    (hrow : (rule, locals) ∈ t.rules.zip formals) : locals.map (·.1) = rule.formals :=
  (h.rules.rows _ hrow).names

/-- No two formal parameters of a rule have the same name. -/
theorem nodup_keys (h : t.Declared base a globals formals)
    (hrow : (rule, locals) ∈ t.rules.zip formals) : (locals.map (·.1)).Nodup :=
  h.keys_eq hrow ▸ h.rules.formals_nodup rule (List.of_mem_zip hrow).1

/-- Within a rule a formal parameter has its own variable. -/
theorem find_formal (h : t.Declared base a globals formals)
    (hrow : (rule, locals) ∈ t.rules.zip formals) (hname : name ∈ rule.formals) :
    ∃ v, (name, v) ∈ locals ∧ Scope.find ⟨globals, locals⟩ name = .ok v := by
  rw [← h.keys_eq hrow] at hname
  obtain ⟨⟨_, v⟩, hmem, rfl⟩ := List.mem_map.mp hname
  exact ⟨v, hmem, Scope.find_of_mem (h.nodup_keys hrow) hmem⟩

/-- Within a rule every other name means what it means outside. -/
theorem find_global (h : t.Declared base a globals formals)
    (hrow : (rule, locals) ∈ t.rules.zip formals) (hname : name ∉ rule.formals) :
    Scope.find ⟨globals, locals⟩ name = Scope.find ⟨globals, []⟩ name :=
  Scope.find_of_not_mem (h.keys_eq hrow ▸ hname)

/-- The variable of a rule stands for the arrow from those of its formal parameters. -/
theorem find_rule (h : t.Declared base a globals formals)
    (hrow : (rule, locals) ∈ t.rules.zip formals) :
    ∃ head, Scope.find ⟨globals, []⟩ rule.name = .ok head ∧ head < a.cells.size ∧
      ∀ ρ, a.Models ρ → ρ head = .arrow ((locals.map (·.2)).map ρ) := by
  obtain ⟨head, hget, hlt, hsort⟩ := (h.rules.rows _ hrow).head
  refine ⟨head, ?_, hlt, hsort⟩
  simp only [Scope.find, List.lookup_nil, hget]

/-- The name of a rule is declared with its rule. -/
theorem exists_rule (h : t.Declared base a globals formals) (hname : name ∈ t.ruleNames) :
    ∃ rule locals, (rule, locals) ∈ t.rules.zip formals ∧ rule.name = name := by
  obtain ⟨rule, hrule, rfl⟩ := List.mem_map.mp hname
  obtain ⟨locals, hrow⟩ := h.exists_row hrule
  exact ⟨rule, locals, hrow, rfl⟩

/-- A name of no rule is that of a token, or undefined. -/
theorem find_token (h : t.Declared base a globals formals) (hname : name ∉ t.ruleNames) :
    Scope.find ⟨globals, []⟩ name =
      if name ∈ t.tokens then .ok star else .error (.undefined name) := by
  have hget : globals[name]? = if name ∈ t.tokens then some star else none :=
    (h.rules.old name hname).trans (h.tokens name)
  by_cases htoken : name ∈ t.tokens <;> simp [Scope.find, hget, htoken]

/-! ## The arena of a declared template -/

/-- The variable for `*` is one of the arena. -/
theorem star_lt (h : t.Declared base a globals formals) : star < a.cells.size :=
  Nat.lt_of_lt_of_le Nat.one_pos h.rules.size_le

/-- The variable for `*` has that sort in every model. -/
theorem star_eq (h : t.Declared base a globals formals) (hρ : a.Models ρ) : ρ star = .star :=
  (h.rules.models ρ hρ).arrow (v := star) rfl

/-- The global names have variables of the arena. -/
theorem fits_globals (h : t.Declared base a globals formals) : Scope.Fits ⟨globals, []⟩ a where
  wellFormed := h.rules.wellFormed
  star_lt := h.star_lt
  star_eq _ := h.star_eq
  lt name v hv := by
    by_cases hname : name ∈ t.ruleNames
    · obtain ⟨rule, locals, hrow, rfl⟩ := h.exists_rule hname
      obtain ⟨head, hfind, hlt, _⟩ := h.find_rule hrow
      cases hfind.symm.trans hv
      exact hlt
    · rw [h.find_token hname] at hv
      split at hv
      · cases hv
        exact h.star_lt
      · cases hv

/-- The names in a rule have variables of the arena. -/
theorem fits (h : t.Declared base a globals formals)
    (hrow : (rule, locals) ∈ t.rules.zip formals) : Scope.Fits ⟨globals, locals⟩ a where
  wellFormed := h.rules.wellFormed
  star_lt := h.star_lt
  star_eq _ := h.star_eq
  lt name v hv := by
    by_cases hname : name ∈ rule.formals
    · obtain ⟨w, hmem, hfind⟩ := h.find_formal hrow hname
      cases hfind.symm.trans hv
      exact (h.rules.rows _ hrow).lt v (List.mem_map.mpr ⟨_, hmem, rfl⟩)
    · rw [h.find_global hrow hname] at hv
      exact h.fits_globals.lt name v hv

/-- The names that are in scope outside the rules are those of tokens and rules. -/
theorem knows_global_iff (h : t.Declared base a globals formals) :
    Scope.Knows ⟨globals, []⟩ name ↔ name ∈ t.tokens ∨ name ∈ t.ruleNames := by
  by_cases hname : name ∈ t.ruleNames
  · obtain ⟨rule, locals, hrow, rfl⟩ := h.exists_rule hname
    obtain ⟨head, hfind, _⟩ := h.find_rule hrow
    exact iff_of_true ⟨head, hfind⟩ (Or.inr hname)
  · unfold Scope.Knows
    rw [h.find_token hname]
    split <;> simp_all

/-- The names that are in scope in a rule are its formal parameters, too. -/
theorem knows_iff (h : t.Declared base a globals formals)
    (hrow : (rule, locals) ∈ t.rules.zip formals) : Scope.Knows ⟨globals, locals⟩ name ↔
      name ∈ rule.formals ∨ name ∈ t.tokens ∨ name ∈ t.ruleNames := by
  by_cases hname : name ∈ rule.formals
  · obtain ⟨v, _, hfind⟩ := h.find_formal hrow hname
    exact iff_of_true ⟨v, hfind⟩ (Or.inl hname)
  · rw [or_iff_right hname, ← h.knows_global_iff, Scope.Knows, h.find_global hrow hname,
      Scope.Knows]

/-! ## The sorts of names -/

/-- Names have the same sorts in scope and in the template. -/
theorem env_eq (h : t.Declared base a globals formals) (hρ : a.Models ρ)
    (hσ : Realizes t globals formals ρ σ) (hrow : (rule, locals) ∈ t.rules.zip formals) :
    Scope.env ⟨globals, locals⟩ ρ = t.sortOf σ rule := by
  funext name
  unfold sortOf
  split
  · rename_i hname
    obtain ⟨v, hmem, hfind⟩ := h.find_formal hrow hname
    rw [Scope.env_of_find hfind]
    exact hσ.formals _ hrow _ hmem
  · rename_i hname
    have hglobal : Scope.env ⟨globals, locals⟩ ρ name = Scope.env ⟨globals, []⟩ ρ name := by
      unfold Scope.env
      rw [h.find_global hrow hname]
    rw [hglobal]
    split
    · rename_i hmem
      exact hσ.rules name hmem
    · rename_i hmem
      unfold Scope.env
      rw [h.find_token hmem]
      split
      · rename_i hfind
        split at hfind
        · cases hfind
          exact h.star_eq hρ
        · cases hfind
      · rfl

/-- A rule has the arrow from the sorts of its formal parameters in every model. -/
theorem env_rule (h : t.Declared base a globals formals) (hρ : a.Models ρ)
    (hrow : (rule, locals) ∈ t.rules.zip formals) (hformals : FormalsHave σ ρ rule locals) :
    Scope.env ⟨globals, []⟩ ρ rule.name = .arrow (rule.formals.map (σ.formal rule.name)) := by
  obtain ⟨head, hfind, _, hsort⟩ := h.find_rule hrow
  rw [Scope.env_of_find hfind, hsort ρ hρ, ← h.keys_eq hrow, List.map_map, List.map_map]
  exact congrArg GroundSort.arrow (List.map_congr_left hformals)

/-- A sorting that gives a rule the arrow from the sorts of its formal parameters is realized by a
model if those of the formal parameters are. -/
theorem realizes_of_formals (h : t.Declared base a globals formals) (hρ : a.Models ρ)
    (hformals : ∀ row ∈ t.rules.zip formals, FormalsHave σ ρ row.1 row.2)
    (hrules : ∀ rule ∈ t.rules, σ.rule rule.name = .arrow (rule.formals.map (σ.formal rule.name))) :
    Realizes t globals formals ρ σ := by
  refine ⟨fun name hname => ?_, hformals⟩
  obtain ⟨rule, locals, hrow, rfl⟩ := h.exists_rule hname
  rw [h.env_rule hρ hrow (hformals _ hrow), hrules rule (List.of_mem_zip hrow).1]

/-- A sorting that is read off a model is realized by it. -/
theorem realizes_sortingOf (h : t.Declared base a globals formals) (ρ : Nat → GroundSort) :
    Realizes t globals formals ρ (sortingOf t globals formals ρ) := by
  refine ⟨fun _ _ => rfl, ?_⟩
  rintro ⟨rule, locals⟩ hrow ⟨name, v⟩ hmem
  have hkeys : ((t.ruleNames.zip formals).map (·.1)).Nodup := by
    rw [List.map_fst_zip (by rw [ruleNames, List.length_map, h.rules.length])]
    exact h.rules.names
  have hrow' : (rule.name, locals) ∈ t.ruleNames.zip formals := by
    rw [ruleNames, List.zip_map_left]
    exact List.mem_map.mpr ⟨_, hrow, rfl⟩
  have hlookup := (lookup_eq_some_iff_mem hkeys).mpr hrow'
  simp only [sortingOf, hlookup, Option.getD_some]
  exact (Scope.env_of_find (Scope.find_of_mem (h.nodup_keys hrow) hmem) ρ).symm

end Declared
end Template
end ParserGen
