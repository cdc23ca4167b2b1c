import ParserGen.Proofs.Sorts.Culprits
import ParserGen.Proofs.Sorts.Termination
import ParserGen.Proofs.Template.SortInference

/-!
# The sorts that an error names

Sort inference reads the two sorts of an error after the unification that failed, from variables
that may be parts of those that were to be unified.  All checks keep the arena free of cycles, so
reading comes to an end, and what is read shows why the unification failed.

Main results:

- Theorem `Template.exists_reading_of_unifyAt`: an error reports what is read for two variables that
  clash.
- Theorem `Template.failsOnly_checkParameter`, theorem `Template.failsOnly_checkRules`: no check
  fails in another way.
- Theorem `Template.inferSorts_names_culprits`: the sorts of an error are arrows with different
  numbers of operands, or one of them is a proper part of the other one.
-/

namespace ParserGen

/-- The sorts that an error names clash as it says. -/
def SortError.NamesCulprits : SortError → Prop
  | illSorted _ expected found _ => found.Clash expected
  | cyclic _ expected found _ => found.ProperPart expected ∨ expected.ProperPart found
  | _ => True

namespace Template

open SortArena

variable {t : Template} {a b : SortArena} {s : Scope} {v w : Nat} {e : SortError}
  {globals : Std.TreeMap String Nat}

/-! ## Unification -/

/-- An error reports what is read for two variables in the arena that unification leaves behind, and
these clash as it says. -/
theorem exists_reading_of_unifyAt (ha : a.WellFormed) (hv : v < a.cells.size)
    (hw : w < a.cells.size) {symbol : String} (herror : unifyAt a symbol v w = .error e) :
    ∃ x y found expected, (a.unify v w).2.Decodes x found ∧ (a.unify v w).2.Decodes y expected ∧
      (e = .illSorted symbol expected found (.arity x y) ∧ found.Clash expected ∨
        e = .cyclic symbol expected found (.occurs x y) ∧
          (found.ProperPart expected ∨ expected.ProperPart found)) := by
  unfold unifyAt at herror
  split at herror
  · cases herror
  · rename_i x y b hunify
    cases herror
    obtain ⟨hb, hblames⟩ := ha.blames_unify hv hw hunify
    cases hblames with
    | arity hx hy hclash =>
      rw [hunify]
      exact ⟨x, y, _, _, (hb.decodes_iff hx).mpr rfl, (hb.decodes_iff hy).mpr rfl,
        Or.inl ⟨rfl, hb.clash_decode hclash⟩⟩
  · rename_i x y b hunify
    cases herror
    obtain ⟨hb, hblames⟩ := ha.blames_unify hv hw hunify
    cases hblames with
    | occurs hx hy hknotted =>
      rw [hunify]
      exact ⟨x, y, _, _, (hb.decodes_iff hx).mpr rfl, (hb.decodes_iff hy).mpr rfl,
        Or.inr ⟨rfl, hb.knotted_decode hknotted⟩⟩

/-- A unification that fails for a symbol names the culprits. -/
theorem failsOnly_unifyAt (ha : a.WellFormed) (hv : v < a.cells.size) (hw : w < a.cells.size)
    (symbol : String) : FailsOnly SortError.NamesCulprits (unifyAt a symbol v w) := by
  intro e herror
  obtain ⟨_, _, _, _, _, _, ⟨rfl, hclash⟩ | ⟨rfl, hpart⟩⟩ :=
    exists_reading_of_unifyAt ha hv hw herror
  · exact hclash
  · exact hpart

/-! ## Names and variables -/

/-- A name that is not found is an error without culprits. -/
theorem failsOnly_find (s : Scope) (name : String) :
    FailsOnly SortError.NamesCulprits (s.find name) := by
  unfold Scope.find
  split
  · exact failsOnly_ok _
  · split
    · exact failsOnly_ok _
    · exact failsOnly_error trivial

theorem failsOnly_freshVariable (a : SortArena) :
    FailsOnly SortError.NamesCulprits (freshVariable a) := by
  unfold freshVariable
  split
  · exact failsOnly_ok _
  · exact failsOnly_error trivial

theorem failsOnly_arrowVariable (a : SortArena) (vs : List Nat) :
    FailsOnly SortError.NamesCulprits (arrowVariable a vs) := by
  unfold arrowVariable
  split
  · exact failsOnly_ok _
  · exact failsOnly_error trivial

theorem failsOnly_freshVariables (a : SortArena) (count : Nat) :
    FailsOnly SortError.NamesCulprits (freshVariables a count) := by
  induction count generalizing a with
  | zero => exact failsOnly_ok _
  | succ count ih =>
    refine (failsOnly_freshVariable a).bind fun first _ => ?_
    exact (ih first.2).bind fun _ _ => failsOnly_ok _

theorem failsOnly_declareGlobal (globals : Std.TreeMap String Nat) (name : String) (v : Nat) :
    FailsOnly SortError.NamesCulprits (declareGlobal globals name v) := by
  unfold declareGlobal
  split
  · exact failsOnly_error trivial
  · exact failsOnly_ok _

theorem failsOnly_declareFormals (a : SortArena) (locals : List (String × Nat))
    (names : List String) :
    FailsOnly SortError.NamesCulprits (declareFormals a locals names) := by
  induction names generalizing a locals with
  | nil => exact failsOnly_ok _
  | cons name names ih =>
    refine (failsOnly_freshVariable a).bind fun first _ => ?_
    dsimp only
    split
    · exact failsOnly_error trivial
    · exact ih _ _

theorem failsOnly_declareRules (a : SortArena) (globals : Std.TreeMap String Nat)
    (rules : List TemplateRule) :
    FailsOnly SortError.NamesCulprits (declareRules a globals rules) := by
  induction rules generalizing a globals with
  | nil => exact failsOnly_ok _
  | cons rule rules ih =>
    refine (failsOnly_declareFormals a [] rule.formals).bind fun declared _ => ?_
    refine (failsOnly_arrowVariable declared.2 _).bind fun shape _ => ?_
    refine (failsOnly_declareGlobal globals rule.name shape.1).bind fun globals _ => ?_
    exact (ih shape.2 globals).bind fun _ _ => failsOnly_ok _

/-! ## Parameters -/

mutual

/-- A parameter that is checked in an arena without cycles fails only over sorts that clash. -/
theorem failsOnly_checkParameter : ∀ (p : Parameter) {a : SortArena} {w : Nat}, s.Fits a →
    w < a.cells.size → FailsOnly SortError.NamesCulprits (checkParameter s a p w)
  | .var name, a, w, hs, hw =>
    (failsOnly_find s name).bind fun v hv =>
      failsOnly_unifyAt hs.wellFormed (hs.lt name v hv) hw name
  | .app name args, a, w, hs, hw => by
    refine (failsOnly_find s name).bind fun head hhead => ?_
    refine (failsOnly_freshVariables a args.length).bind fun (vs, b) hvs => ?_
    refine (failsOnly_arrowVariable b vs).bind fun (shape, c) hshape => ?_
    obtain ⟨hfresh, hlength⟩ := fresh_of_freshVariables hs.wellFormed hvs
    have hshaped := hfresh.arrow (arrowVariable_eq_ok.mp hshape)
    have hc := hs.refine hshaped.toRefines
    have hhead' := hc.lt name head hhead
    refine (failsOnly_unifyAt hc.wellFormed hhead' hshaped.shape_lt name).bind fun d hd => ?_
    have hcd := (imposes_unifyAt hc.wellFormed hhead' hshaped.shape_lt name).refines d hd
    have hvs' : ∀ v ∈ vs, v < d.cells.size := fun v hv => (hshaped.lt v hv).trans_le hcd.size_le
    have hd' := hc.refine hcd
    refine (failsOnly_checkArguments args vs hd' hvs').bind fun f hf => ?_
    have hdf := (imposes_checkArguments args vs hd' hvs' hlength).refines f hf
    have hf' := hd'.refine hdf
    exact failsOnly_unifyAt hf'.wellFormed hf'.star_lt
      (hw.trans_le (hshaped.size_le.trans (hcd.size_le.trans hdf.size_le))) _

/-- Arguments that do not fit are reported with the culprits. -/
theorem failsOnly_checkArguments : ∀ (ps : List Parameter) (vs : List Nat) {a : SortArena},
    s.Fits a → (∀ v ∈ vs, v < a.cells.size) →
      FailsOnly SortError.NamesCulprits (checkArguments s a ps vs)
  | [], _, _, _, _ => failsOnly_ok _
  | _ :: _, [], _, _, _ => failsOnly_ok _
  | p :: ps, v :: vs, a, hs, hvs => by
    obtain ⟨hv, hvs⟩ := List.forall_mem_cons.mp hvs
    refine (failsOnly_checkParameter p hs hv).bind fun b hb => ?_
    have hab := (imposes_checkParameter p hs hv).refines b hb
    exact failsOnly_checkArguments ps vs (hs.refine hab) fun w hw =>
      (hvs w hw).trans_le hab.size_le

end

/-! ## Rules -/

/-- A rule that does not fit is reported with the culprits. -/
theorem failsOnly_checkRule (hs : s.Fits a) (rule : TemplateRule) :
    FailsOnly SortError.NamesCulprits (checkRule s a rule) := by
  refine FailsOnly.foldlM (Q := s.Fits) hs fun branch _ b hb => ⟨?_, fun c hc => ?_⟩
  · refine FailsOnly.foldlM (Q := s.Fits) hb fun p _ c hc => ⟨?_, fun d hd => ?_⟩
    · exact failsOnly_checkParameter p hc hc.star_lt
    · exact hc.refine ((imposes_checkParameter p hc hc.star_lt).refines d hd)
  · exact hb.refine ((imposes_checkSymbols hb branch.elements).refines c hc)

/-- No check of the rules fails except over sorts that clash. -/
theorem failsOnly_checkRules {rules : List TemplateRule} {formals : List (List (String × Nat))}
    (hs : ∀ row ∈ rules.zip formals, Scope.Fits ⟨globals, row.2⟩ a) :
    FailsOnly SortError.NamesCulprits (checkRules globals a rules formals) := by
  induction rules generalizing a formals with
  | nil => exact failsOnly_ok _
  | cons rule rules ih =>
    cases formals with
    | nil => exact failsOnly_ok _
    | cons locals formals =>
      obtain ⟨hrule, hrules⟩ := List.forall_mem_cons.mp hs
      refine (failsOnly_checkRule hrule rule).bind fun b hb => ih fun row hrow => ?_
      exact (hrules row hrow).refine ((imposes_checkRule hrule rule).refines b hb)

/-- A start symbol that does not fit is reported with the culprits. -/
theorem failsOnly_checkStart (hs : Scope.Fits ⟨globals, []⟩ a) (t : Template) :
    FailsOnly SortError.NamesCulprits (checkStart t globals a) := by
  unfold checkStart
  cases t.startName? with
  | none => exact failsOnly_error trivial
  | some name =>
    dsimp only
    split
    · refine (failsOnly_find _ name).bind fun v hv => ?_
      exact failsOnly_unifyAt hs.wellFormed (hs.lt name v hv) hs.star_lt name
    · exact failsOnly_error trivial

theorem failsOnly_readSorts (globals : Std.TreeMap String Nat) (a : SortArena)
    (rules : List TemplateRule) :
    FailsOnly SortError.NamesCulprits (readSorts globals a rules) := by
  induction rules with
  | nil => exact failsOnly_ok _
  | cons rule rules ih =>
    refine (failsOnly_find _ rule.name).bind fun v _ => ?_
    exact ih.bind fun _ _ => failsOnly_ok _

/-! ## Sort inference -/

/-- Sort inference fails, if it does so over sorts, over sorts that clash. -/
theorem failsOnly_inferSorts (t : Template) : FailsOnly SortError.NamesCulprits t.inferSorts := by
  have htokens : FailsOnly SortError.NamesCulprits
      (t.tokens.foldlM (fun globals name => declareGlobal globals name star) ∅) :=
    FailsOnly.foldlM (Q := fun _ => True) trivial fun name _ globals _ =>
      ⟨failsOnly_declareGlobal globals name star, fun _ _ => trivial⟩
  refine htokens.bind fun base hbase => ?_
  refine (failsOnly_declareRules initial base t.rules).bind fun ⟨a, globals, formals⟩ hrules => ?_
  have hdeclared := declared_of_ok hbase hrules
  refine (failsOnly_checkRules fun row hrow => hdeclared.fits hrow).bind fun b hb => ?_
  have hab := (imposes_checkRules hdeclared.rules.wellFormed
    fun row hrow => hdeclared.fits hrow).refines b hb
  refine (failsOnly_checkStart (hdeclared.fits_globals.refine hab) t).bind fun c _ => ?_
  exact failsOnly_readSorts globals c t.rules

/-- The sorts of an error are arrows with different numbers of operands if it is that of an
ill-sorted symbol, and one of them is a proper part of the other one if it is that of a cyclic
sort. -/
theorem inferSorts_names_culprits (t : Template) :
    (∀ symbol expected found cause,
      t.inferSorts = .error (.illSorted symbol expected found cause) →
        ∃ d e, found = .arrow d ∧ expected = .arrow e ∧ d.length ≠ e.length) ∧
      ∀ symbol expected found cause,
        t.inferSorts = .error (.cyclic symbol expected found cause) →
          found.ProperPart expected ∨ expected.ProperPart found :=
  ⟨fun _ _ _ _ herror => failsOnly_inferSorts t _ herror,
    fun _ _ _ _ herror => failsOnly_inferSorts t _ herror⟩

/-- A rule that applies its second parameter to its first one, and is given the rules `x` and
`f`. -/
def applied (x f : String) : Template where
  tokens := []
  levels := []
  rules :=
    [⟨"list", ["X"], [Samples.branch []]⟩, ⟨"flat", ["X"], [Samples.branch [.var "X"]]⟩,
      ⟨"apply", ["X", "F"], [Samples.branch [.app "F" [.var "X"]]]⟩,
      Samples.plainRule "main" [[.app "apply" [.var x, .var f]]]]
  start := some "main"

/-- The operands of the two arrows clash, not the arrows that were to be unified. -/
theorem inferSorts_names_culprits_applied :
    ((applied "list" "flat").inferSorts =
        .error (.illSorted "flat" (.arrow [.var 1]) (.arrow []) (.arity 3 9)) ∧
      ∃ d e, SortTerm.arrow [] = .arrow d ∧ SortTerm.arrow [.var 1] = .arrow e ∧
        d.length ≠ e.length) ∧
      (applied "list" "list").inferSorts =
        .error (.cyclic "list" (.arrow [.arrow [.var 1]]) (.arrow [.var 1]) (.occurs 2 12)) ∧
      (SortTerm.ProperPart (.arrow [.var 1]) (.arrow [.arrow [.var 1]]) ∨
        SortTerm.ProperPart (.arrow [.arrow [.var 1]]) (.arrow [.var 1])) := by
  have hflat : (applied "list" "flat").inferSorts =
      .error (.illSorted "flat" (.arrow [.var 1]) (.arrow []) (.arity 3 9)) := by decide +kernel
  have hlist : (applied "list" "list").inferSorts =
      .error (.cyclic "list" (.arrow [.arrow [.var 1]]) (.arrow [.var 1]) (.occurs 2 12)) := by
    decide +kernel
  exact ⟨⟨hflat, (inferSorts_names_culprits _).1 _ _ _ _ hflat⟩, hlist,
    (inferSorts_names_culprits _).2 _ _ _ _ hlist⟩

end Template
end ParserGen
