import ParserGen.Proofs.Template.Checks
import ParserGen.Proofs.Template.Scopes
import ParserGen.Samples.Templates

/-!
# Soundness, completeness and minimality of sort inference

The checks of a declared template take away the models that do not fit it.  They succeed if there is
a sorting that fits, since it gives a model that every check keeps.  The sorts that are read in the
end are those of the least model that is left.

Main results:

- Theorem `Template.Declared.checked_iff`: the checks demand that the sorting fits.
- Theorem `Template.Declared.checks_complete`: they succeed if there is a sorting that fits.
- Theorem `Template.inferSorts_least`: sorts are inferred if and only if there is a sorting that
  fits, and they are those of the least one.
-/

namespace ParserGen
namespace Template

open SortArena

variable {t : Template} {a b : SortArena} {base globals : Std.TreeMap String Nat}
  {formals : List (List (String × Nat))} {σ : Sorting} {ρ : Nat → GroundSort}

/-- Variables are needed for the declarations, and after them for the checks. -/
theorem variableCount_eq (t : Template) : t.variableCount =
    1 + ((t.rules.map fun rule => rule.formals.length + 1).sum +
      (t.rules.map (·.symbolVariables)).sum) := by
  have hsum : (t.rules.map TemplateRule.variableCount).sum =
      (t.rules.map fun rule => rule.formals.length + 1).sum +
        (t.rules.map (·.symbolVariables)).sum := List.sum_map_add
  rw [variableCount, hsum]

/-- What the checks of a template demand of the sorts of the variables. -/
def Checked (t : Template) (globals : Std.TreeMap String Nat)
    (formals : List (List (String × Nat))) (ρ : Nat → GroundSort) : Prop :=
  (∀ row ∈ t.rules.zip formals, Scope.SortsRule ⟨globals, row.2⟩ row.1 ρ) ∧
    ∃ name ∈ t.ruleNames, t.startName? = some name ∧ Scope.Knows ⟨globals, []⟩ name ∧
      Scope.env ⟨globals, []⟩ ρ name = .star

namespace Declared

/-! ## What the checks demand -/

theorem imposes_checks (h : t.Declared base a globals formals) :
    Imposes a (checkRules globals a t.rules formals >>= checkStart t globals)
      ((t.rules.map (·.symbolVariables)).sum + 0) (Checked t globals formals) := by
  refine (imposes_checkRules h.rules.wellFormed fun row hrow => h.fits hrow).bind ?_ fun b hab =>
    imposes_checkStart (h.fits_globals.refine hab) t
  intro ρ ρ' heq hstart
  rwa [← h.fits_globals.env_congr heq]

/-- No name is declared twice if all names are declared. -/
theorem nodup_globals (h : t.Declared base a globals formals) :
    (t.tokens ++ t.ruleNames).Nodup := by
  refine List.nodup_append.mpr ⟨h.tokens_nodup, h.rules.names, ?_⟩
  rintro name htoken _ hrule rfl
  have hnone := h.rules.new name hrule
  rw [h.tokens, if_pos htoken] at hnone
  cases hnone

/-- The checks demand that the names are known and that the sorting fits. -/
theorem checked_iff (h : t.Declared base a globals formals) (hρ : a.Models ρ)
    (hσ : Realizes t globals formals ρ σ) :
    Checked t globals formals ρ ↔ t.WellNamed ∧ t.SortedBy σ := by
  constructor
  · rintro ⟨hrules, name, hname, hstart, _, hsort⟩
    refine ⟨⟨h.nodup_globals, h.rules.formals_nodup, ?_, name, hname, hstart⟩, ?_, ?_, ?_⟩
    · intro rule hrule branch hbranch p hp key hkey
      obtain ⟨locals, hrow⟩ := h.exists_row hrule
      exact (h.knows_iff hrow).mp ((hrules _ hrow branch hbranch p hp).1 key hkey)
    · intro rule hrule
      obtain ⟨locals, hrow⟩ := h.exists_row hrule
      rw [← hσ.rules _ (List.mem_map_of_mem hrule), h.env_rule hρ hrow (hσ.formals _ hrow)]
    · intro rule hrule branch hbranch p hp
      obtain ⟨locals, hrow⟩ := h.exists_row hrule
      have hsymbol := (hrules _ hrow branch hbranch p hp).2
      rwa [h.env_eq hρ hσ hrow] at hsymbol
    · intro name' hstart'
      cases hstart.symm.trans hstart'
      rw [← hσ.rules name hname, hsort]
  · rintro ⟨hnames, hsorted⟩
    obtain ⟨name, hname, hstart⟩ := hnames.start
    refine ⟨?_, name, hname, hstart, h.knows_global_iff.mpr (Or.inr hname), ?_⟩
    · rintro ⟨rule, locals⟩ hrow branch hbranch p hp
      have hrule := (List.of_mem_zip hrow).1
      refine ⟨fun key hkey => ?_, ?_⟩
      · exact (h.knows_iff hrow).mpr (hnames.known rule hrule branch hbranch p hp key hkey)
      · rw [h.env_eq hρ hσ hrow]
        exact hsorted.symbols rule hrule branch hbranch p hp
    · rw [hσ.rules name hname, hsorted.start name hstart]

/-! ## The least sorting -/

theorem realizes_congr (h : t.Declared base a globals formals)
    (hσ : Realizes t globals formals ρ σ) {ρ' : Nat → GroundSort}
    (heq : Set.EqOn ρ ρ' (Set.Iio a.cells.size)) : Realizes t globals formals ρ' σ where
  rules name hname := h.fits_globals.env_congr heq ▸ hσ.rules name hname
  formals row hrow formal hformal := by
    have hlt := (h.rules.rows row hrow).lt formal.2 (List.mem_map_of_mem hformal)
    exact (heq hlt).symm.trans (hσ.formals row hrow formal hformal)

/-- The arena has room for the checks within the limit. -/
theorem size_add_le (h : t.Declared base a globals formals)
    (hroom : t.variableCount ≤ defaultLimit) :
    a.cells.size + ((t.rules.map (·.symbolVariables)).sum + 0) ≤ a.limit := by
  have hlimit : a.limit = defaultLimit := h.rules.limit
  have hinitial : initial.cells.size = 1 := rfl
  rw [h.rules.size, hlimit, hinitial]
  rw [variableCount_eq] at hroom
  omega

/-- The checks succeed if there is a sorting that fits, and leave a model that realizes it. -/
theorem checks_complete (h : t.Declared base a globals formals)
    (hroom : t.variableCount ≤ defaultLimit) (hnames : t.WellNamed) (hσ : t.SortedBy σ) :
    ∃ b ρ, (checkRules globals a t.rules formals >>= checkStart t globals) = .ok b ∧
      b.Models ρ ∧ Realizes t globals formals ρ σ := by
  have hinitial := (wellFormed_withLimit defaultLimit).models_decode
  obtain ⟨ρ, hρ, _, hformals⟩ := h.rules.extend _ σ hinitial
  have hrealizes := h.realizes_of_formals hρ hformals hσ.rules
  have hchecked := (h.checked_iff hρ hrealizes).mpr ⟨hnames, hσ⟩
  obtain ⟨b, ρ', hb, hρ', heq⟩ := h.imposes_checks.complete (h.size_add_le hroom) ρ hρ hchecked
  exact ⟨b, ρ', hb, hρ', h.realizes_congr hrealizes heq⟩

theorem readSorts_eq {rules : List TemplateRule}
    (hknown : ∀ rule ∈ rules, Scope.Knows ⟨globals, []⟩ rule.name) :
    readSorts globals b rules = .ok (rules.map fun rule =>
      (rule.name, Scope.env ⟨globals, []⟩ (fun v => (b.decode v).ground) rule.name)) := by
  induction rules with
  | nil => rfl
  | cons rule rules ih =>
    obtain ⟨⟨v, hv⟩, hknown⟩ := List.forall_mem_cons.mp hknown
    simp only [readSorts, hv, ih hknown, bind, Except.bind, List.map_cons, Scope.env_of_find hv]

/-- What is read after checks that succeed is a sorting that fits. -/
theorem checks_sound (h : t.Declared base a globals formals)
    (hb : (checkRules globals a t.rules formals >>= checkStart t globals) = .ok b) :
    t.WellNamed ∧ ∃ σ, Realizes t globals formals (fun v => (b.decode v).ground) σ ∧
      t.SortedBy σ ∧ readSorts globals b t.rules = .ok (t.sortsBy σ) := by
  have hab := h.imposes_checks.refines b hb
  have hdecode := hab.wellFormed.models_decode
  have hρ := hab.models _ hdecode
  have hrealizes := h.realizes_sortingOf fun v => (b.decode v).ground
  obtain ⟨hnames, hsorted⟩ :=
    (h.checked_iff hρ hrealizes).mp (h.imposes_checks.sound b hb _ hdecode)
  refine ⟨hnames, _, hrealizes, hsorted, readSorts_eq fun rule hrule => ?_⟩
  exact h.knows_global_iff.mpr (Or.inr (List.mem_map_of_mem hrule))

/-- What is read in the end is the least sorting that fits. -/
theorem least (h : t.Declared base a globals formals) (hroom : t.variableCount ≤ defaultLimit)
    (hb : (checkRules globals a t.rules formals >>= checkStart t globals) = .ok b) :
    t.WellNamed ∧ ∃ σ, t.SortedBy σ ∧ readSorts globals b t.rules = .ok (t.sortsBy σ) ∧
      ∀ σ', t.SortedBy σ' → t.SortsBelow σ σ' := by
  obtain ⟨hnames, σ, hrealizes, hsorted, hread⟩ := h.checks_sound hb
  refine ⟨hnames, σ, hsorted, hread, fun σ' hσ' => ?_⟩
  -- Another sorting is realized by a model of the same arena, which is above the one that is read.
  obtain ⟨b', ρ', hb', hρ', hrealizes'⟩ := h.checks_complete hroom hnames hσ'
  cases hb.symm.trans hb'
  have hle := hρ'.decode_le (h.imposes_checks.refines b hb).wellFormed
  constructor
  · intro rule hrule
    have hname : rule.name ∈ t.ruleNames := List.mem_map_of_mem hrule
    obtain ⟨locals, hrow⟩ := h.exists_row hrule
    obtain ⟨head, hfind, _⟩ := h.find_rule hrow
    rw [← hrealizes.rules _ hname, ← hrealizes'.rules _ hname, Scope.env_of_find hfind,
      Scope.env_of_find hfind]
    exact hle head
  · intro rule hrule name hname
    obtain ⟨locals, hrow⟩ := h.exists_row hrule
    obtain ⟨v, hmem, _⟩ := h.find_formal hrow hname
    rw [← hrealizes.formals _ hrow _ hmem, ← hrealizes'.formals _ hrow _ hmem]
    exact hle v

end Declared

/-! ## Sort inference -/

theorem declared_of_ok
    (htokens : t.tokens.foldlM (fun globals name => declareGlobal globals name star) ∅ = .ok base)
    (hrules : declareRules initial base t.rules = .ok (a, globals, formals)) :
    t.Declared base a globals formals := by
  obtain ⟨hnodup, _, hget⟩ := declareTokens_spec htokens
  exact ⟨hnodup, fun key => by simpa using hget key,
    rulesDeclared (wellFormed_withLimit defaultLimit) hrules⟩

/-- Sorts are inferred by declarations, checks and reading. -/
theorem exists_of_inferSorts_eq_ok {sorts : RuleSorts} (h : t.inferSorts = .ok sorts) :
    ∃ base a globals formals b, t.Declared base a globals formals ∧
      (checkRules globals a t.rules formals >>= checkStart t globals) = .ok b ∧
      readSorts globals b t.rules = .ok sorts := by
  obtain ⟨base, htokens, h⟩ := exists_of_bind_eq_ok h
  obtain ⟨⟨a, globals, formals⟩, hrules, h⟩ := exists_of_bind_eq_ok h
  obtain ⟨b, hb, h⟩ := exists_of_bind_eq_ok h
  obtain ⟨c, hc, h⟩ := exists_of_bind_eq_ok h
  refine ⟨base, a, globals, formals, c, declared_of_ok htokens hrules, ?_, h⟩
  rw [hb]
  exact hc

/-- A template of which sorts are inferred declares its names. -/
theorem wellNamed_of_inferSorts {sorts : RuleSorts} (h : t.inferSorts = .ok sorts) :
    t.WellNamed := by
  obtain ⟨base, a, globals, formals, b, hdeclared, hb, _⟩ := exists_of_inferSorts_eq_ok h
  exact (hdeclared.checks_sound hb).1

/-- The names of a template can be declared if none is declared twice. -/
theorem exists_declared (hnames : t.WellNamed) (hroom : t.variableCount ≤ defaultLimit) :
    ∃ base a globals formals, t.Declared base a globals formals ∧
      ∀ b, (checkRules globals a t.rules formals >>= checkStart t globals) = .ok b →
        t.inferSorts = readSorts globals b t.rules := by
  obtain ⟨htokens, hrules, hdisjoint⟩ := List.nodup_append.mp hnames.globals
  have hempty : ∀ name ∈ t.tokens, (∅ : Std.TreeMap String Nat)[name]? = none := by simp
  obtain ⟨base, hbase⟩ := exists_declareTokens htokens hempty
  obtain ⟨_, _, hget⟩ := declareTokens_spec hbase
  have hnew : ∀ name ∈ t.rules.map (·.name), base[name]? = none := by
    intro name hname
    rw [hget, if_neg fun htoken => hdisjoint name htoken name hname rfl]
    simp
  have hinitial : initial.cells.size = 1 := rfl
  have hlimit : initial.limit = defaultLimit := rfl
  rw [variableCount_eq] at hroom
  obtain ⟨a, globals, formals, hdeclare⟩ :=
    exists_declareRules (a := initial) (wellFormed_withLimit defaultLimit) (by omega) hrules hnew
      hnames.formals
  refine ⟨base, a, globals, formals, declared_of_ok hbase hdeclare, fun b hb => ?_⟩
  obtain ⟨c, hc, hb⟩ := exists_of_bind_eq_ok hb
  simp only [inferSorts, hbase, hdeclare, hc, hb, bind, Except.bind]

/-- Sorts are inferred if and only if the names of a template are declared and a sorting fits it,
and they are those of the least one. -/
theorem inferSorts_least (hroom : t.variableCount ≤ defaultLimit) :
    ((∃ sorts, t.inferSorts = .ok sorts) ↔ t.WellNamed ∧ ∃ σ, t.SortedBy σ) ∧
      ∀ sorts, t.inferSorts = .ok sorts → ∃ σ, t.SortedBy σ ∧ sorts = t.sortsBy σ ∧
        ∀ σ', t.SortedBy σ' → t.SortsBelow σ σ' := by
  have hsound : ∀ sorts, t.inferSorts = .ok sorts → t.WellNamed ∧ ∃ σ, t.SortedBy σ ∧
      sorts = t.sortsBy σ ∧ ∀ σ', t.SortedBy σ' → t.SortsBelow σ σ' := by
    intro sorts hsorts
    obtain ⟨base, a, globals, formals, b, hdeclared, hb, hread⟩ :=
      exists_of_inferSorts_eq_ok hsorts
    obtain ⟨hnames, σ, hσ, hread', hleast⟩ := hdeclared.least hroom hb
    exact ⟨hnames, σ, hσ, Except.ok.inj (hread.symm.trans hread'), hleast⟩
  refine ⟨⟨?_, ?_⟩, fun sorts hsorts => (hsound sorts hsorts).2⟩
  · rintro ⟨sorts, hsorts⟩
    obtain ⟨hnames, σ, hσ, _⟩ := hsound sorts hsorts
    exact ⟨hnames, σ, hσ⟩
  · rintro ⟨hnames, σ, hσ⟩
    obtain ⟨base, a, globals, formals, hdeclared, hinfer⟩ := exists_declared hnames hroom
    obtain ⟨b, _, hb, _⟩ := hdeclared.checks_complete hroom hnames hσ
    obtain ⟨_, σ₀, _, hread, _⟩ := hdeclared.least hroom hb
    exact ⟨_, (hinfer b hb).trans hread⟩

/-- A rule that takes another rule as a parameter, and applies it between brackets. -/
def bracketedList : Template where
  tokens := ["a", "open", "close"]
  levels := []
  rules :=
    [Samples.plainRule "main" [[.app "wrap" [.var "list", .var "a"]]],
      ⟨"list", ["X"], [Samples.branch [], Samples.branch [.var "X", .app "list" [.var "X"]]]⟩,
      ⟨"wrap", ["F", "X"], [Samples.branch [.var "open", .app "F" [.var "X"], .var "close"]]⟩]
  start := some "main"

theorem inferSorts_least_bracketedList :
    bracketedList.variableCount ≤ defaultLimit ∧
      bracketedList.inferSorts.toOption = some [("main", .star), ("list", .arrow [.star]),
        ("wrap", .arrow [.arrow [.star], .star])] ∧
      bracketedList.WellNamed ∧
      ∃ σ, bracketedList.SortedBy σ ∧ σ.rule "wrap" = .arrow [.arrow [.star], .star] ∧
        ∀ σ', bracketedList.SortedBy σ' → bracketedList.SortsBelow σ σ' := by
  have hroom : bracketedList.variableCount ≤ defaultLimit := by decide +kernel
  have hsorts : bracketedList.inferSorts.toOption = some [("main", .star), ("list", .arrow [.star]),
      ("wrap", .arrow [.arrow [.star], .star])] := by decide +kernel
  obtain ⟨hiff, hleast⟩ := inferSorts_least hroom
  cases h : bracketedList.inferSorts with
  | error e =>
    rw [h] at hsorts
    cases hsorts
  | ok sorts =>
    rw [h] at hsorts
    obtain ⟨σ, hσ, hrows, hbelow⟩ := hleast sorts h
    refine ⟨hroom, hsorts, (hiff.mp ⟨sorts, h⟩).1, σ, hσ, ?_, hbelow⟩
    have hrules : bracketedList.sortsBy σ = [("main", .star), ("list", .arrow [.star]),
        ("wrap", .arrow [.arrow [.star], .star])] := hrows ▸ Option.some.inj hsorts
    simp only [sortsBy, bracketedList, List.map_cons, List.map_nil, List.cons.injEq,
      Prod.mk.injEq] at hrules
    exact hrules.2.2.1.2

end Template
end ParserGen
