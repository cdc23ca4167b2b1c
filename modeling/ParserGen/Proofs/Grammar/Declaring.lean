import Mathlib.Data.List.Basic
import ParserGen.Grammar.Definition

/-!
# What a declaration does

The kinds of declarations are opened here, and nowhere else.  A declaration that takes effect is
given the next number of its kind, and its row is added.  One that is refused leaves the definition
as it was, but for a rule that finds no number left: its sides have been noted by then.

Main results:

- Theorem `Definition.effect_of_declare`: what a declaration does that takes effect.
- Theorem `Definition.refused_cases`: what a refused declaration leaves.
- Theorem `Definition.notes_declare_iff`: which rules have been noted.
- Theorem `Definition.declareEach_induction`: what every declaration keeps holds at the end.
- Theorem `Definition.declareEach_of_declareAll`: without a refusal it does not matter whether a
  definition goes on after one.
-/

namespace ParserGen

/-- Both sides of a declared rule. -/
def Declaration.sides? : Declaration → Option (Nat × List Symbol)
  | .rule left right _ => some (left, right)
  | _ => none

/-- Strings of symbols with the same codes are the same. -/
theorem map_code_inj {xs ys : List Symbol} : xs.map Symbol.code = ys.map Symbol.code ↔ xs = ys :=
  (List.map_injective_iff.mpr fun _ _ h => Symbol.code_inj.mp h).eq_iff

/-- The key of a rule tells both of its sides. -/
theorem productionKey_inj {left left' : Nat} {right right' : List Symbol} :
    productionKey left right = productionKey left' right' ↔ left = left' ∧ right = right' := by
  rw [productionKey, productionKey, List.cons.injEq, map_code_inj]

/-- The next number is the count of those that have been given, as long as it is in range. -/
theorem nextId_eq_ok {count n : Nat} {what : Resource} (h : nextId count what = .ok n) :
    n = count ∧ count < idLimit := by
  unfold nextId at h
  split at h
  · cases h
    exact ⟨rfl, ‹_›⟩
  · cases h

/-- There is no next number only if all are used up. -/
theorem nextId_eq_error {count : Nat} {what : Resource} {cause : DefinitionError}
    (h : nextId count what = .error cause) : idLimit ≤ count ∧ cause = .tooMany what := by
  unfold nextId at h
  split at h
  · cases h
  · rename_i hlimit
    cases h
    exact ⟨Nat.le_of_not_lt hlimit, rfl⟩

namespace Definition

variable {d d' : Definition} {c : Declaration} {cs : List Declaration} {n : Nat}
  {cause : DefinitionError}

/-! ## Names -/

/-- A name that passes the check has no fault and is new. -/
theorem checkName_eq_ok {name : String} (h : d.checkName name = .ok ()) :
    nameFault? name = none ∧ d.names[name]? = none := by
  unfold checkName at h
  split at h
  · cases h
  · rename_i hfault
    split at h
    · cases h
    · rename_i hnew
      rw [Std.TreeMap.contains_eq_isSome_getElem?, Option.not_isSome_iff_eq_none] at hnew
      exact ⟨hfault, hnew⟩

/-- The name is found wanting, whatever it is declared for. -/
theorem checkName_ne_tooMany {name : String} (h : d.checkName name = .error cause) :
    cause ≠ .tooMany .rules := by
  unfold checkName at h
  split at h
  · cases h
    simp
  · split at h
    · cases h
      simp
    · cases h

/-! ## Noted rules -/

/-- Whether a rule with these sides has been asked for. -/
def Notes (d : Definition) (left : Nat) (right : List Symbol) : Prop :=
  productionKey left right ∈ d.productions

/-- The definition with one more rule noted. -/
def noting (d : Definition) (left : Nat) (right : List Symbol) : Definition :=
  { d with productions := d.productions.insert (productionKey left right) }

@[simp]
theorem terminals_noting (d : Definition) (left : Nat) (right : List Symbol) :
    (d.noting left right).terminals = d.terminals := rfl

@[simp]
theorem nonterminals_noting (d : Definition) (left : Nat) (right : List Symbol) :
    (d.noting left right).nonterminals = d.nonterminals := rfl

@[simp]
theorem start_noting (d : Definition) (left : Nat) (right : List Symbol) :
    (d.noting left right).start = d.start := rfl

/-- Noting adds one pair of sides. -/
theorem notes_noting_iff {left left' : Nat} {right right' : List Symbol} :
    (d.noting left right).Notes left' right' ↔
      left = left' ∧ right = right' ∨ d.Notes left' right' := by
  rw [Notes, noting, Std.TreeSet.mem_insert, Std.LawfulEqOrd.compare_eq_iff_eq, productionKey_inj,
    Notes]

/-- A rule whose sides have been noted is refused as a duplicate. -/
theorem declareRule_of_notes {left : Nat} {right : List Symbol} (hnotes : d.Notes left right)
    (precedence : Option Precedence) :
    d.declareRule left right precedence =
      (.error (.duplicateRule (d.nonterminals[left]?.getD "<unknown>")), d) := by
  rw [Notes, ← Std.TreeSet.contains_iff_mem] at hnotes
  simp only [declareRule, hnotes, if_true]

/-- A new rule that finds no number left is noted. -/
theorem declareRule_of_full {left : Nat} {right : List Symbol} (hnotes : ¬ d.Notes left right)
    (hfull : idLimit ≤ d.rules.size + 1) (precedence : Option Precedence) :
    d.declareRule left right precedence = (.error (.tooMany .rules), d.noting left right) := by
  rw [Notes, ← Std.TreeSet.contains_iff_mem] at hnotes
  simp only [declareRule, if_neg hnotes, nextId, if_neg (Nat.not_lt.mpr hfull), noting]

/-- A new rule gets the next number. -/
theorem declareRule_of_new {left : Nat} {right : List Symbol} (hnotes : ¬ d.Notes left right)
    (hroom : d.rules.size + 1 < idLimit) (precedence : Option Precedence) :
    d.declareRule left right precedence =
      (.ok (d.rules.size + 1),
        { d.noting left right with
          rules := d.rules.insert (d.rules.size + 1)
            ⟨d.rules.size + 1, left, right, precedence, d.rules.size + 1⟩ }) := by
  rw [Notes, ← Std.TreeSet.contains_iff_mem] at hnotes
  simp only [declareRule, if_neg hnotes, nextId, if_pos hroom, noting]

/-! ## Taking effect -/

/-- What a declaration does that takes effect under a number. -/
inductive Effect (d : Definition) : Declaration → Nat → Definition → Prop
  | terminal {name : String} {precedence : Option Precedence} :
      d.terminals.size < idLimit → nameFault? name = none → d.names[name]? = none →
      Effect d (.terminal name precedence) d.terminals.size
        { d with
          terminals := d.terminals.insert d.terminals.size ⟨name, precedence⟩
          names := d.names.insert name (.terminal d.terminals.size) }
  | nonterminal {name : String} : nameFault? name = none → d.names[name]? = none →
      Effect d (.nonterminal name) d.nonterminals.size
        { d with
          nonterminals := d.nonterminals.insert d.nonterminals.size name
          names := d.names.insert name (.nonterminal d.nonterminals.size) }
  | rule {left : Nat} {right : List Symbol} {precedence : Option Precedence} :
      ¬ d.Notes left right →
      Effect d (.rule left right precedence) (d.rules.size + 1)
        { d.noting left right with
          rules := d.rules.insert (d.rules.size + 1)
            ⟨d.rules.size + 1, left, right, precedence, d.rules.size + 1⟩ }
  | start {symbol : Nat} : symbol ∈ d.nonterminals → symbol ≠ augmentedStart →
      Effect d (.start symbol) symbol { d with start := some symbol }

/-- A declaration that is accepted has the effect of its kind. -/
theorem effect_of_declare (hd : d.declare c = (.ok n, d')) : d.Effect c n d' := by
  cases c with
  | terminal name precedence =>
    simp only [declare, declareTerminal] at hd
    split at hd
    · cases hd
    · rename_i id hid
      split at hd
      · cases hd
      · rename_i hname
        cases hd
        obtain ⟨rfl, hroom⟩ := nextId_eq_ok hid
        exact .terminal hroom (checkName_eq_ok hname).1 (checkName_eq_ok hname).2
  | nonterminal name =>
    simp only [declare, declareNonterminal] at hd
    split at hd
    · cases hd
    · rename_i id hid
      split at hd
      · cases hd
      · rename_i hname
        cases hd
        obtain ⟨rfl, _⟩ := nextId_eq_ok hid
        exact .nonterminal (checkName_eq_ok hname).1 (checkName_eq_ok hname).2
  | rule left right precedence =>
    rw [declare] at hd
    by_cases hnotes : d.Notes left right
    · rw [declareRule_of_notes hnotes] at hd
      cases hd
    · by_cases hfull : idLimit ≤ d.rules.size + 1
      · rw [declareRule_of_full hnotes hfull] at hd
        cases hd
      · rw [declareRule_of_new hnotes (Nat.lt_of_not_le hfull)] at hd
        cases hd
        exact .rule hnotes
  | start symbol =>
    simp only [declare, declareStart] at hd
    split at hd
    · cases hd
    · rename_i hsymbol
      cases hd
      simp only [Bool.or_eq_true, not_or, Bool.not_eq_true', Bool.not_eq_false,
        beq_iff_eq] at hsymbol
      exact .start (IndexMap.contains_iff_mem.mp hsymbol.1) hsymbol.2

/-! ## Being refused -/

/-- A refused declaration changes nothing, but that a new rule is noted if it finds no number
left. -/
theorem refused_cases (hd : d.declare c = (.error cause, d')) :
    cause ≠ .tooMany .rules ∧ d' = d ∨
      cause = .tooMany .rules ∧ ∃ left right precedence, c = .rule left right precedence ∧
        ¬ d.Notes left right ∧ idLimit ≤ d.rules.size + 1 ∧ d' = d.noting left right := by
  cases c with
  | terminal name precedence =>
    simp only [declare, declareTerminal] at hd
    split at hd
    · rename_i e hid
      cases hd
      exact .inl ⟨by simp [(nextId_eq_error hid).2], rfl⟩
    · split at hd
      · rename_i e hname
        cases hd
        exact .inl ⟨checkName_ne_tooMany hname, rfl⟩
      · cases hd
  | nonterminal name =>
    simp only [declare, declareNonterminal] at hd
    split at hd
    · rename_i e hid
      cases hd
      exact .inl ⟨by simp [(nextId_eq_error hid).2], rfl⟩
    · split at hd
      · rename_i e hname
        cases hd
        exact .inl ⟨checkName_ne_tooMany hname, rfl⟩
      · cases hd
  | rule left right precedence =>
    rw [declare] at hd
    by_cases hnotes : d.Notes left right
    · rw [declareRule_of_notes hnotes] at hd
      cases hd
      exact .inl ⟨by simp, rfl⟩
    · by_cases hfull : idLimit ≤ d.rules.size + 1
      · rw [declareRule_of_full hnotes hfull] at hd
        cases hd
        exact .inr ⟨rfl, left, right, precedence, rfl, hnotes, hfull, rfl⟩
      · rw [declareRule_of_new hnotes (Nat.lt_of_not_le hfull)] at hd
        cases hd
  | start symbol =>
    simp only [declare, declareStart] at hd
    split at hd
    · cases hd
      exact .inl ⟨by simp, rfl⟩
    · cases hd

/-- A declaration that is refused changes at most which rules have been noted. -/
theorem refused_frame (hd : d.declare c = (.error cause, d')) :
    d' = { d with productions := d'.productions } := by
  obtain ⟨_, rfl⟩ | ⟨_, left, right, precedence, _, _, _, rfl⟩ := refused_cases hd <;> rfl

/-! ## What depends on the noted rules -/

/-- What is declared besides rules does not depend on the noted rules, and does not change them. -/
theorem declare_of_not_rule (hc : c.sides? = none) (d : Definition)
    (productions : Std.TreeSet (List Nat)) :
    ({ d with productions := productions } : Definition).declare c =
        ((d.declare c).1, { (d.declare c).2 with productions := productions }) ∧
      (d.declare c).2.productions = d.productions ∧ (d.declare c).2.rules = d.rules := by
  cases c with
  | terminal name precedence =>
    simp only [declare, declareTerminal, checkName]
    cases nextId d.terminals.size .terminals with
    | error e => exact ⟨rfl, rfl, rfl⟩
    | ok id =>
      cases nameFault? name with
      | some fault => exact ⟨rfl, rfl, rfl⟩
      | none => cases d.names.contains name <;> exact ⟨rfl, rfl, rfl⟩
  | nonterminal name =>
    simp only [declare, declareNonterminal, checkName]
    cases nextId d.nonterminals.size .nonterminals with
    | error e => exact ⟨rfl, rfl, rfl⟩
    | ok id =>
      cases nameFault? name with
      | some fault => exact ⟨rfl, rfl, rfl⟩
      | none => cases d.names.contains name <;> exact ⟨rfl, rfl, rfl⟩
  | rule left right precedence => cases hc
  | start symbol =>
    simp only [declare, declareStart]
    split <;> exact ⟨rfl, rfl, rfl⟩

/-- A rule is noted as soon as it is asked for, and for ever. -/
theorem notes_declare_iff {left : Nat} {right : List Symbol} :
    (d.declare c).2.Notes left right ↔ d.Notes left right ∨ c.sides? = some (left, right) := by
  by_cases hsides : c.sides? = none
  · obtain ⟨_, hproductions, _⟩ := declare_of_not_rule hsides d d.productions
    rw [Notes, hproductions, hsides, Notes]
    simp
  · cases c with
    | terminal | nonterminal | start => exact absurd rfl hsides
    | rule left' right' precedence =>
      rw [declare, Declaration.sides?, Option.some.injEq, Prod.mk.injEq]
      by_cases hnotes : d.Notes left' right'
      · rw [declareRule_of_notes hnotes]
        refine ⟨Or.inl, ?_⟩
        rintro (h | ⟨rfl, rfl⟩)
        · exact h
        · exact hnotes
      · rw [or_comm]
        by_cases hfull : idLimit ≤ d.rules.size + 1
        · rw [declareRule_of_full hnotes hfull]
          exact notes_noting_iff
        · rw [declareRule_of_new hnotes (Nat.lt_of_not_le hfull)]
          exact notes_noting_iff

/-! ## Declarations one after the other -/

/-- Carry out all declarations, going on after one that is refused.  The results are in the order of
the declarations. -/
def declareEach (d : Definition) :
    List Declaration → List (Except DefinitionError Nat) × Definition
  | [] => ([], d)
  | c :: cs =>
      ((d.declare c).1 :: ((d.declare c).2.declareEach cs).1, ((d.declare c).2.declareEach cs).2)

@[simp]
theorem declareEach_nil (d : Definition) : d.declareEach [] = ([], d) := rfl

@[simp]
theorem results_declareEach_cons (d : Definition) (c : Declaration) (cs : List Declaration) :
    (d.declareEach (c :: cs)).1 = (d.declare c).1 :: ((d.declare c).2.declareEach cs).1 := rfl

@[simp]
theorem declareEach_cons (d : Definition) (c : Declaration) (cs : List Declaration) :
    (d.declareEach (c :: cs)).2 = ((d.declare c).2.declareEach cs).2 := rfl

/-- Declarations take effect one after the other. -/
theorem declareEach_append (d : Definition) (cs more : List Declaration) :
    (d.declareEach (cs ++ more)).2 = ((d.declareEach cs).2.declareEach more).2 := by
  induction cs generalizing d with
  | nil => rfl
  | cons c cs ih => exact ih _

/-- What every declaration keeps holds at the end. -/
theorem declareEach_induction {motive : Definition → Prop}
    (hstep : ∀ d c, motive d → motive (d.declare c).2) (h : motive d) (cs : List Declaration) :
    motive (d.declareEach cs).2 := by
  induction cs generalizing d with
  | nil => exact h
  | cons c cs ih => exact ih (hstep d c h)

/-- If none of the declarations is refused, it does not matter what comes after a refusal. -/
theorem declareEach_of_declareAll (hd : d.declareAll cs = .ok d') : (d.declareEach cs).2 = d' := by
  induction cs generalizing d with
  | nil =>
    cases hd
    rfl
  | cons c cs ih =>
    simp only [declareAll] at hd
    split at hd
    · rename_i next hnext
      rw [declareEach_cons, hnext]
      exact ih hd
    · cases hd

end Definition
end ParserGen
