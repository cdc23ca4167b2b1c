import ParserGen.Proofs.Grammar.Declaring

/-!
# Declarations without repetition

A definition is refused at one of its declarations, after others that have taken effect.  If a name
is refused because it is in use, an earlier declaration has given it; if a rule is refused as a
duplicate, an earlier one has asked for it.  So neither happens where nothing is declared twice.

Main results:

- Theorem `Definition.refusal_of_declare`: why a declaration is refused.
- Theorem `Definition.exists_refused_of_declareAll`: which of several declarations is refused.
- Theorem `Grammar.define_ne_redeclared`, theorem `Grammar.define_ne_duplicateRule`: if no name or
  no rule is declared twice, none is refused as repeated.
-/

namespace ParserGen

/-- The name that a declaration gives to a symbol. -/
def Declaration.name? : Declaration → Option String
  | .terminal name _ => some name
  | .nonterminal name => some name
  | .rule _ _ _ => none
  | .start _ => none

namespace Definition

variable {d d' : Definition} {c : Declaration} {cs : List Declaration} {name : String}
  {left : Nat} {right : List Symbol} {cause : DefinitionError}

/-! ## Causes of refusal -/

/-- Why a declaration is refused. -/
inductive Refusal (d : Definition) : Declaration → DefinitionError → Prop
  | invalidName {c : Declaration} {name : String} {fault : NameFault} : c.name? = some name →
      nameFault? name = some fault → Refusal d c (.invalidName name fault)
  | redeclared {c : Declaration} {name : String} : c.name? = some name → name ∈ d.names →
      Refusal d c (.redeclared name)
  | duplicateRule {left : Nat} {right : List Symbol} {precedence : Option Precedence}
      {owner : String} : d.Notes left right →
      Refusal d (.rule left right precedence) (.duplicateRule owner)
  | invalidStart {symbol : Nat} : Refusal d (.start symbol) .invalidStart
  | tooMany {c : Declaration} {what : Resource} : Refusal d c (.tooMany what)

theorem refusal_of_checkName (h : d.checkName name = .error cause) (hc : c.name? = some name) :
    d.Refusal c cause := by
  unfold checkName at h
  split at h
  · rename_i fault hfault
    cases h
    exact .invalidName hc hfault
  · split at h
    · rename_i hold
      cases h
      exact .redeclared hc (Std.TreeMap.contains_iff_mem.mp hold)
    · cases h

theorem refusal_of_nextId {count : Nat} {what : Resource} (h : nextId count what = .error cause)
    (d : Definition) (c : Declaration) : d.Refusal c cause := by
  rw [(nextId_eq_error h).2]
  exact .tooMany

theorem refusal_of_declare (h : d.declare c = (.error cause, d')) : d.Refusal c cause := by
  cases c with
  | terminal name precedence =>
    simp only [declare, declareTerminal] at h
    split at h
    · rename_i hid
      cases h
      exact refusal_of_nextId hid _ _
    · split at h
      · rename_i hname
        cases h
        exact refusal_of_checkName hname rfl
      · cases h
  | nonterminal name =>
    simp only [declare, declareNonterminal] at h
    split at h
    · rename_i hid
      cases h
      exact refusal_of_nextId hid _ _
    · split at h
      · rename_i hname
        cases h
        exact refusal_of_checkName hname rfl
      · cases h
  | rule left right precedence =>
    rw [declare] at h
    by_cases hnotes : d.Notes left right
    · rw [declareRule_of_notes hnotes] at h
      cases h
      exact .duplicateRule hnotes
    · by_cases hfull : idLimit ≤ d.rules.size + 1
      · rw [declareRule_of_full hnotes hfull] at h
        cases h
        exact .tooMany
      · rw [declareRule_of_new hnotes (Nat.lt_of_not_le hfull)] at h
        cases h
  | start symbol =>
    simp only [declare, declareStart] at h
    split at h
    · cases h
      exact .invalidStart
    · cases h

/-- One of the declarations is refused, after those before it have been carried out. -/
theorem exists_refused_of_declareAll (h : d.declareAll cs = .error cause) :
    ∃ before c after, cs = before ++ c :: after ∧ (d.declareEach before).2.Refusal c cause := by
  induction cs generalizing d with
  | nil => cases h
  | cons c cs ih =>
    simp only [declareAll] at h
    split at h
    · rename_i next hnext
      obtain ⟨before, c', after, rfl, hrefusal⟩ := ih h
      refine ⟨c :: before, c', after, rfl, ?_⟩
      rwa [declareEach_cons, hnext]
    · rename_i hrefused
      cases h
      exact ⟨[], c, cs, rfl, refusal_of_declare hrefused⟩

/-! ## What is in use -/

theorem mem_filterMap_cons {α : Type} {kind : Declaration → Option α} {a : α} :
    a ∈ (c :: cs).filterMap kind ↔ kind c = some a ∨ a ∈ cs.filterMap kind := by
  rw [List.mem_filterMap, List.exists_mem_cons_iff, ← List.mem_filterMap]

/-- A name comes in use by the declaration that gives it. -/
theorem mem_names_of_declare (h : name ∈ (d.declare c).2.names) :
    name ∈ d.names ∨ c.name? = some name := by
  cases hd : d.declare c with
  | mk result d' =>
    rw [hd] at h
    cases result with
    | error e =>
      rw [refused_frame hd] at h
      exact Or.inl h
    | ok n =>
      have heffect := effect_of_declare hd
      cases heffect with
      | rule | start => exact Or.inl h
      | terminal | nonterminal =>
        rw [Std.TreeMap.mem_insert, Std.compare_eq_iff_eq] at h
        exact h.symm.imp_right (congrArg some)

theorem mem_names_of_declareEach (h : name ∈ (d.declareEach cs).2.names) :
    name ∈ d.names ∨ name ∈ cs.filterMap Declaration.name? := by
  induction cs generalizing d with
  | nil => exact Or.inl h
  | cons c cs ih =>
    rw [declareEach_cons] at h
    rw [mem_filterMap_cons, ← or_assoc]
    exact (ih h).imp_left mem_names_of_declare

theorem notes_declareEach_iff : (d.declareEach cs).2.Notes left right ↔
    d.Notes left right ∨ (left, right) ∈ cs.filterMap Declaration.sides? := by
  induction cs generalizing d with
  | nil => simp
  | cons c cs ih =>
    rw [declareEach_cons, ih, notes_declare_iff, or_assoc, mem_filterMap_cons]

end Definition

/-! ## Nothing is declared twice -/

namespace Grammar

variable {cs : List Declaration}

theorem exists_refused_of_define {cause : DefinitionError} (h : define cs = .error cause) :
    cause = .noNonterminals ∨ ∃ before c after, cs = before ++ c :: after ∧
      (Definition.initial.declareEach before).2.Refusal c cause := by
  unfold define at h
  split at h
  · unfold Definition.finish at h
    split at h
    · cases h
      exact Or.inl rfl
    · cases h
  · rename_i hrefused
    cases h
    exact Or.inr (Definition.exists_refused_of_declareAll hrefused)

/-- What one declaration has is not that of an earlier one. -/
theorem not_mem_of_nodup_filterMap {α : Type} {kind : Declaration → Option α}
    {before after : List Declaration} {c : Declaration} {a : α}
    (h : ((before ++ c :: after).filterMap kind).Nodup) (hc : kind c = some a) :
    a ∉ before.filterMap kind := by
  rw [List.filterMap_append, List.filterMap_cons_some hc] at h
  exact fun hmem => (List.nodup_append.mp h).2.2 a hmem a List.mem_cons_self rfl

/-- If no name is declared twice, none is refused as repeated. -/
theorem define_ne_redeclared (h : (cs.filterMap Declaration.name?).Nodup) (name : String) :
    define cs ≠ .error (.redeclared name) := by
  intro hrefused
  rcases exists_refused_of_define hrefused with hend | ⟨before, c, after, rfl, hrefusal⟩
  · cases hend
  · cases hrefusal with
    | redeclared hname hmem =>
      rcases Definition.mem_names_of_declareEach hmem with hempty | hbefore
      · exact absurd hempty Std.TreeMap.not_mem_emptyc
      · exact not_mem_of_nodup_filterMap h hname hbefore

/-- If no rule is declared twice, none is refused as repeated. -/
theorem define_ne_duplicateRule (h : (cs.filterMap Declaration.sides?).Nodup) (owner : String) :
    define cs ≠ .error (.duplicateRule owner) := by
  intro hrefused
  rcases exists_refused_of_define hrefused with hend | ⟨before, c, after, rfl, hrefusal⟩
  · cases hend
  · cases hrefusal with
    | duplicateRule hnotes =>
      rcases Definition.notes_declareEach_iff.mp hnotes with hempty | hbefore
      · exact absurd hempty Std.TreeSet.not_mem_emptyc
      · exact not_mem_of_nodup_filterMap h rfl hbefore

end Grammar
end ParserGen
