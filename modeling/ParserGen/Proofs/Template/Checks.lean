import ParserGen.Proofs.Template.Constraints

/-!
# What the checks of a template demand

Main results:

- Theorem `Template.imposes_checkParameter`: checking a parameter demands that its names are in
  scope and that it has the sort that is expected of it.
- Theorem `Template.imposes_checkRules`: checking the rules demands this of all symbols, with the
  sort `*`.
- Theorem `Template.imposes_checkStart`: checking the start symbol demands that it is a rule without
  formal parameters.
-/

namespace ParserGen
namespace Template

open SortArena

variable {a b : SortArena} {s : Scope} {v w m n : Nat} {P Q : (Nat → GroundSort) → Prop}

/-- The sorts of parameters depend on the variables of the names in scope. -/
theorem Scope.Fits.local_haveSorts (hs : s.Fits a) {vs : List Nat}
    (hvs : ∀ v ∈ vs, v < a.cells.size) (ps : List Parameter) :
    Local a.cells.size fun ρ => Parameter.HaveSorts (s.env ρ) ps (vs.map ρ) := by
  intro ρ ρ' heq hsorts
  have hmap : vs.map ρ' = vs.map ρ := List.map_congr_left fun w hw => (heq (hvs w hw)).symm
  rwa [hmap, ← hs.env_congr heq]

theorem local_const {K : Prop} : Local n fun _ => K := fun _ _ _ => id

mutual

/-- Checking a parameter demands that it has the sort that is expected of it. -/
theorem imposes_checkParameter : ∀ (p : Parameter) {a : SortArena} {w : Nat}, s.Fits a →
    w < a.cells.size → Imposes a (checkParameter s a p w) p.variableCount fun ρ =>
      (∀ name ∈ p.names, s.Knows name) ∧ p.HasSort (s.env ρ) (ρ w)
  | .var name, a, w, hs, hw => by
    refine imposes_find (fun ρ _ h => h.1 name List.mem_cons_self) fun v hv => ?_
    refine (imposes_unifyAt hs.wellFormed (hs.lt name v hv) hw name).congr fun ρ _ => ?_
    have hknown : ∀ name' ∈ [name], s.Knows name' :=
      List.forall_mem_singleton.mpr ⟨v, hv⟩
    rw [Parameter.HasSort, Scope.env_of_find hv]
    exact (and_iff_right hknown).symm
  | .app name args, a, w, hs, hw => by
    refine imposes_find (fun ρ _ h => h.1 name List.mem_cons_self) fun head hhead => ?_
    have hknown : (∀ name' ∈ name :: Parameter.namesAll args, s.Knows name') ↔
        ∀ name' ∈ Parameter.namesAll args, s.Knows name' := by
      rw [List.forall_mem_cons]
      exact and_iff_right ⟨head, hhead⟩
    refine imposes_shape
      (Q := fun vs shape ρ => ρ head = ρ shape ∧
        ((∀ name' ∈ Parameter.namesAll args, s.Knows name') ∧
          Parameter.HaveSorts (s.env ρ) args (vs.map ρ)) ∧ ρ star = ρ w)
      (f := fun vs shape a => do
        let a ← unifyAt a name head shape
        let a ← checkArguments s a args vs
        unifyAt a (Parameter.app name args).text star w) hs.wellFormed ?_ ?_ ?_
    · intro vs shape b hshaped hlength
      have hb := hs.refine hshaped.toRefines
      have hwb := hw.trans_le hshaped.size_le
      have hunify := imposes_unifyAt hb.wellFormed (hb.lt name head hhead) hshaped.shape_lt name
      have hlocal := hb.local_haveSorts hshaped.lt args
      have hstar := local_eq hb.star_lt hwb
      refine Imposes.mono (m := 0 + (Parameter.variableCounts args + 0))
        (hunify.bind ((local_const.and hlocal).and hstar) fun c hbc => ?_) (by omega)
      have hc := hb.refine hbc
      have hargs := imposes_checkArguments args vs hc
        (fun w hw => (hshaped.lt w hw).trans_le hbc.size_le) hlength
      refine hargs.bind (local_eq hc.star_lt (hwb.trans_le hbc.size_le)) fun d hcd => ?_
      have hd := hc.refine hcd
      exact imposes_unifyAt hd.wellFormed hd.star_lt
        (hwb.trans_le (hbc.size_le.trans hcd.size_le)) _
    · rintro vs shape b ρ hshaped hρ ⟨hhead', ⟨hnames, hargs⟩, hstar⟩
      refine ⟨hknown.mpr hnames, ?_⟩
      have hsort : s.env ρ name = .arrow (vs.map ρ) := by
        rw [Scope.env_of_find hhead, hhead', hshaped.arrow ρ hρ]
      rw [Parameter.HasSort, hsort]
      exact ⟨hargs, hstar.symm.trans (hs.star_eq ρ (hshaped.models ρ hρ))⟩
    -- The new variables stand for the operands of the head.
    · rintro ρ hρ ⟨hnames, hargs, hstar⟩
      refine ⟨(s.env ρ name).domain, hargs.length_eq, fun vs shape b ρ' hshaped hρ' heq hmap => ?_⟩
      rw [hs.env_congr heq] at hargs hmap
      have hsort : ρ' head = .arrow (vs.map ρ') := by
        rw [hmap, Scope.env_of_find hhead, GroundSort.arrow_domain]
      refine ⟨hsort.trans (hshaped.arrow ρ' hρ').symm, ⟨hknown.mp hnames, hmap ▸ hargs⟩, ?_⟩
      rw [hs.star_eq ρ' (hshaped.models ρ' hρ'), ← heq hw, hstar]

theorem imposes_checkArguments : ∀ (ps : List Parameter) (vs : List Nat) {a : SortArena}, s.Fits a →
    (∀ v ∈ vs, v < a.cells.size) → vs.length = ps.length →
    Imposes a (checkArguments s a ps vs) (Parameter.variableCounts ps) fun ρ =>
      (∀ name ∈ Parameter.namesAll ps, s.Knows name) ∧
        Parameter.HaveSorts (s.env ρ) ps (vs.map ρ)
  | [], [], a, hs, _, _ => (imposes_ok hs.wellFormed).congr fun ρ _ => by
      simp [Parameter.namesAll, Parameter.HaveSorts]
  | p :: ps, v :: vs, a, hs, hvs, hlength => by
    obtain ⟨hv, hvs⟩ := List.forall_mem_cons.mp hvs
    have hlocal := (local_const (K := ∀ name ∈ Parameter.namesAll ps, s.Knows name)).and
      (hs.local_haveSorts hvs ps)
    refine ((imposes_checkParameter p hs hv).bind hlocal fun b hab => ?_).congr fun ρ _ => ?_
    · exact imposes_checkArguments ps vs (hs.refine hab)
        (fun w hw => (hvs w hw).trans_le hab.size_le) (Nat.succ.inj hlength)
    · rw [Parameter.namesAll, List.map_cons, Parameter.HaveSorts, List.forall_mem_append]
      exact and_and_and_comm

end

/-! ## Rules -/

/-- A symbol has the sort `*`, and its names are in scope. -/
def Scope.SortsSymbol (s : Scope) (p : Parameter) (ρ : Nat → GroundSort) : Prop :=
  (∀ name ∈ p.names, s.Knows name) ∧ p.HasSort (s.env ρ) .star

/-- All symbols of a rule have the sort `*`, and their names are in scope. -/
def Scope.SortsRule (s : Scope) (rule : TemplateRule) (ρ : Nat → GroundSort) : Prop :=
  ∀ branch ∈ rule.branches, ∀ p ∈ branch.elements, s.SortsSymbol p ρ

theorem Scope.Fits.local_sortsSymbol (hs : s.Fits a) (p : Parameter) :
    Local a.cells.size (s.SortsSymbol p) := by
  intro ρ ρ' heq h
  rwa [Scope.SortsSymbol, ← hs.env_congr heq]

theorem Scope.Fits.local_sortsRule (hs : s.Fits a) (rule : TemplateRule) :
    Local a.cells.size (s.SortsRule rule) :=
  .forall fun _ _ => .forall fun p _ => hs.local_sortsSymbol p

/-- Checking the symbols of a branch demands that they have the sort `*`. -/
theorem imposes_checkSymbols (hs : s.Fits a) (elements : List Parameter) :
    Imposes a (elements.foldlM (fun a p => checkParameter s a p star) a)
      (elements.map (·.variableCount)).sum fun ρ => ∀ p ∈ elements, s.SortsSymbol p ρ := by
  refine Imposes.foldlM hs.wellFormed (fun p _ => hs.local_sortsSymbol p) fun b hab p _ => ?_
  have hb := hs.refine hab
  refine (imposes_checkParameter p hb hb.star_lt).congr fun ρ hρ => ?_
  rw [hb.star_eq ρ hρ, Scope.SortsSymbol]

theorem imposes_checkRule (hs : s.Fits a) (rule : TemplateRule) :
    Imposes a (checkRule s a rule) rule.symbolVariables (s.SortsRule rule) :=
  Imposes.foldlM hs.wellFormed (fun _ _ => .forall fun p _ => hs.local_sortsSymbol p)
    fun _ hab branch _ => imposes_checkSymbols (hs.refine hab) branch.elements

/-- Checking the rules demands that all their symbols have the sort `*`. -/
theorem imposes_checkRules {globals : Std.TreeMap String Nat} {rules : List TemplateRule}
    {formals : List (List (String × Nat))} (ha : a.WellFormed)
    (hs : ∀ row ∈ rules.zip formals, Scope.Fits ⟨globals, row.2⟩ a) :
    Imposes a (checkRules globals a rules formals) (rules.map (·.symbolVariables)).sum fun ρ =>
      ∀ row ∈ rules.zip formals, Scope.SortsRule ⟨globals, row.2⟩ row.1 ρ := by
  induction rules generalizing a formals with
  | nil => exact (imposes_ok ha).congr fun ρ _ => by simp
  | cons rule rules ih =>
    cases formals with
    | nil => exact ((imposes_ok ha).mono (Nat.zero_le _)).congr fun ρ _ => by simp
    | cons locals formals =>
      rw [List.zip_cons_cons, List.forall_mem_cons] at hs
      have hlocal : Local a.cells.size fun ρ =>
          ∀ row ∈ rules.zip formals, Scope.SortsRule ⟨globals, row.2⟩ row.1 ρ :=
        .forall fun row hrow => (hs.2 row hrow).local_sortsRule row.1
      rw [List.map_cons, List.sum_cons]
      refine ((imposes_checkRule hs.1 rule).bind hlocal fun b hab => ?_).congr fun ρ _ => ?_
      · exact ih hab.wellFormed fun row hrow => (hs.2 row hrow).refine hab
      · rw [List.zip_cons_cons, List.forall_mem_cons]

/-- Checking the start symbol demands that it is a rule of the sort `*`. -/
theorem imposes_checkStart {globals : Std.TreeMap String Nat} (hs : Scope.Fits ⟨globals, []⟩ a)
    (t : Template) :
    Imposes a (checkStart t globals a) 0 fun ρ => ∃ name ∈ t.ruleNames, t.startName? = some name ∧
      Scope.Knows ⟨globals, []⟩ name ∧ Scope.env ⟨globals, []⟩ ρ name = .star := by
  have hany : ∀ name, t.rules.any (·.name == name) = true ↔ name ∈ t.ruleNames := by
    simp [ruleNames]
  unfold checkStart
  cases hstart : t.startName? with
  | none => exact imposes_error fun ρ _ ⟨_, _, h, _⟩ => nomatch h
  | some name =>
    dsimp only
    split
    · rename_i hname
      refine imposes_find (fun ρ _ ⟨_, _, h, hknown, _⟩ => by cases h; exact hknown) fun v hv => ?_
      refine (imposes_unifyAt hs.wellFormed (hs.lt name v hv) hs.star_lt name).congr fun ρ hρ => ?_
      rw [hs.star_eq ρ hρ, ← Scope.env_of_find hv ρ]
      constructor
      · exact fun h => ⟨name, (hany name).mp hname, rfl, ⟨v, hv⟩, h⟩
      · rintro ⟨_, _, ⟨⟩, _, h⟩
        exact h
    · rename_i hname
      refine imposes_error fun ρ _ ⟨_, hmem, h, _⟩ => hname ?_
      cases h
      exact (hany name).mpr hmem

end Template
end ParserGen
