import ParserGen.Proofs.Grammar.Listing

/-!
# Refused declarations

A definition may go on after a declaration that was refused.  What is declared later, and the
grammar in the end, is as if the refused declaration had not been made, with one exception: a rule
that finds no number left has been noted by then, and is called a duplicate when it is asked for
again.

Main results:

- Theorem `Definition.Noting.declareEach`: definitions that differ in a noted rule only.
- Theorem `Definition.refused_changes_repetition_only`: what can be seen of a refused declaration.
- Theorem `Definition.duplicateRule_after_tooMany`: a rule that is refused for two reasons in turn.
-/

namespace ParserGen
namespace Definition

variable {d d' : Definition} {c : Declaration} {cause : DefinitionError}

/-! ## Definitions that differ in a noted rule -/

/-- The second definition has noted one more rule than the first, and there is no number left for
it. -/
structure Noting (left : Nat) (right : List Symbol) (d d' : Definition) : Prop where
  rest : d' = { d with productions := d'.productions }
  notes_iff : ∀ left' right',
    d'.Notes left' right' ↔ left = left' ∧ right = right' ∨ d.Notes left' right'
  full : idLimit ≤ d.rules.size + 1

variable {left : Nat} {right : List Symbol}

theorem noting_noting (hfull : idLimit ≤ d.rules.size + 1) (left : Nat) (right : List Symbol) :
    Noting left right d (d.noting left right) where
  rest := rfl
  notes_iff _ _ := notes_noting_iff
  full := hfull

namespace Noting

theorem finish_eq (h : Noting left right d d') : d'.finish = d.finish := by
  rw [h.rest]
  rfl

/-- Both definitions note a rule that finds no number left. -/
theorem noting_both (h : Noting left right d d') (left' : Nat) (right' : List Symbol) :
    Noting left right (d.noting left' right') (d'.noting left' right') where
  rest := by
    rw [h.rest]
    rfl
  notes_iff l r := by
    rw [notes_noting_iff, notes_noting_iff, h.notes_iff]
    exact or_left_comm
  full := h.full

/-- A declaration that does not ask for the rule, or not for the first time, has the same result. -/
theorem declare_of_unasked (h : Noting left right d d')
    (hc : c.sides? ≠ some (left, right) ∨ d.Notes left right) :
    (d'.declare c).1 = (d.declare c).1 ∧ Noting left right (d.declare c).2 (d'.declare c).2 := by
  by_cases hsides : c.sides? = none
  · obtain ⟨hdeclare, hproductions, hrules⟩ := declare_of_not_rule hsides d d'.productions
    rw [← h.rest] at hdeclare
    rw [hdeclare]
    refine ⟨rfl, rfl, fun left' right' => ?_, hrules ▸ h.full⟩
    rw [Notes, Notes, hproductions]
    exact h.notes_iff left' right'
  · cases c with
    | terminal | nonterminal | start => exact absurd rfl hsides
    | rule left' right' precedence =>
      rw [declare, declare]
      by_cases hnotes : d.Notes left' right'
      · rw [declareRule_of_notes hnotes,
          declareRule_of_notes ((h.notes_iff left' right').mpr (Or.inr hnotes))]
        refine ⟨?_, h⟩
        rw [h.rest]
      · have hnew : ¬ d'.Notes left' right' := by
          rw [h.notes_iff]
          rintro (⟨rfl, rfl⟩ | hnotes')
          · exact hc.elim (absurd rfl) hnotes
          · exact hnotes hnotes'
        have hfull : idLimit ≤ d'.rules.size + 1 := by
          rw [h.rest]
          exact h.full
        rw [declareRule_of_full hnotes h.full, declareRule_of_full hnew hfull]
        exact ⟨rfl, h.noting_both left' right'⟩

/-- A declaration that asks for the rule for the first time is refused for different reasons, and
then both definitions have noted the rule. -/
theorem declare_of_asked (h : Noting left right d d') (hc : c.sides? = some (left, right))
    (hnotes : ¬ d.Notes left right) :
    d.declare c = (.error (.tooMany .rules), d.noting left right) ∧
      (∃ name, d'.declare c = (.error (.duplicateRule name), d')) ∧
      Noting left right (d.noting left right) d' := by
  cases c with
  | terminal | nonterminal | start => cases hc
  | rule left' right' precedence =>
    cases hc
    refine ⟨declareRule_of_full hnotes h.full precedence, ⟨_, declareRule_of_notes
      ((h.notes_iff left right).mpr (Or.inl ⟨rfl, rfl⟩)) precedence⟩, ?_, fun left' right' => ?_,
      h.full⟩
    · rw [h.rest]
      rfl
    · rw [h.notes_iff, notes_noting_iff, or_self_left]

theorem declare (h : Noting left right d d') (c : Declaration) :
    Noting left right (d.declare c).2 (d'.declare c).2 := by
  by_cases hasked : c.sides? = some (left, right) ∧ ¬ d.Notes left right
  · obtain ⟨hdeclare, ⟨name, hdeclare'⟩, hnoting⟩ := h.declare_of_asked hasked.1 hasked.2
    rw [hdeclare, hdeclare']
    exact hnoting
  · rw [not_and_or, not_not] at hasked
    exact (h.declare_of_unasked hasked).2

theorem declareEach (h : Noting left right d d') (cs : List Declaration) :
    Noting left right (d.declareEach cs).2 (d'.declareEach cs).2 := by
  induction cs generalizing d d' with
  | nil => exact h
  | cons c cs ih => exact ih (h.declare c)

/-- Once both definitions have noted the rule, their results are the same. -/
theorem results_eq_of_notes (h : Noting left right d d') (hnotes : d.Notes left right)
    (cs : List Declaration) : (d'.declareEach cs).1 = (d.declareEach cs).1 := by
  induction cs generalizing d d' with
  | nil => rfl
  | cons c cs ih =>
    obtain ⟨hresult, hnext⟩ := h.declare_of_unasked (c := c) (Or.inr hnotes)
    rw [results_declareEach_cons, results_declareEach_cons, hresult,
      ih hnext (notes_declare_iff.mpr (Or.inl hnotes))]

/-- The results differ where the rule is asked for first, and nowhere else. -/
theorem results_eq (h : Noting left right d d') (hnotes : ¬ d.Notes left right)
    (cs : List Declaration) :
    match cs.findIdx? (·.sides? = some (left, right)) with
    | none => (d'.declareEach cs).1 = (d.declareEach cs).1
    | some i => (d.declareEach cs).1[i]? = some (.error (.tooMany .rules)) ∧
        ∃ name, (d'.declareEach cs).1 =
          (d.declareEach cs).1.set i (.error (.duplicateRule name)) := by
  induction cs generalizing d d' with
  | nil => rfl
  | cons c cs ih =>
    rw [List.findIdx?_cons]
    by_cases hasked : c.sides? = some (left, right)
    · obtain ⟨hdeclare, ⟨name, hdeclare'⟩, hnoting⟩ := h.declare_of_asked hasked hnotes
      rw [if_pos (decide_eq_true hasked)]
      simp only [results_declareEach_cons, hdeclare, hdeclare']
      refine ⟨rfl, name, ?_⟩
      rw [List.set_cons_zero, hnoting.results_eq_of_notes (notes_noting_iff.mpr (.inl ⟨rfl, rfl⟩))]
    · obtain ⟨hresult, hnext⟩ := h.declare_of_unasked (Or.inl hasked)
      have hrest := ih hnext fun hnext => (notes_declare_iff.mp hnext).elim hnotes hasked
      rw [if_neg (by simpa using hasked)]
      cases hfind : cs.findIdx? (·.sides? = some (left, right)) with
      | none =>
        simp only [hfind] at hrest
        simp only [Option.map_none, results_declareEach_cons, hresult, hrest]
      | some i =>
        simp only [hfind] at hrest
        obtain ⟨hfirst, name, hlater⟩ := hrest
        simp only [Option.map_some, results_declareEach_cons, hresult, hlater,
          List.getElem?_cons_succ, List.set_cons_succ]
        exact ⟨hfirst, name, rfl⟩

end Noting

/-! ## What can be seen of a refused declaration -/

/-- A refused declaration does not show in the grammar that the definition is finished to, whatever
is declared in between.  In later results it shows only if it was a rule that found no number left:
then the first later declaration of a rule with the same sides is refused as a duplicate, and not
for want of a number. -/
theorem refused_changes_repetition_only (hd : d.declare c = (.error cause, d'))
    (later : List Declaration) :
    (d'.declareEach later).2.finish = (d.declareEach later).2.finish ∧
      (cause ≠ .tooMany .rules → (d'.declareEach later).1 = (d.declareEach later).1) ∧
      (cause = .tooMany .rules →
        match later.findIdx? (·.sides? = c.sides?) with
        | none => (d'.declareEach later).1 = (d.declareEach later).1
        | some i => (d.declareEach later).1[i]? = some (.error (.tooMany .rules)) ∧
            ∃ name, (d'.declareEach later).1 =
              (d.declareEach later).1.set i (.error (.duplicateRule name))) := by
  obtain ⟨hcause, rfl⟩ | ⟨hcause, left, right, precedence, rfl, hnotes, hfull, rfl⟩ :=
    refused_cases hd
  · exact ⟨rfl, fun _ => rfl, fun h => absurd h hcause⟩
  · have hnoting := noting_noting hfull left right
    exact ⟨(hnoting.declareEach later).finish_eq, fun h => absurd hcause h,
      fun _ => hnoting.results_eq hnotes later⟩

/-! ## A definition that is full of rules -/

/-- A nonterminal, and a rule for each of the first `n` terminals. -/
def singleTerminals (n : Nat) : List Declaration :=
  .nonterminal "S" :: (List.range n).map fun t => .rule 1 [.terminal t] none

/-- The definition of these rules. -/
def withRules (n : Nat) : Definition := (initial.declareEach (singleTerminals n)).2

theorem withRules_succ (n : Nat) :
    withRules (n + 1) = ((withRules n).declare (.rule 1 [.terminal n] none)).2 := by
  rw [withRules, singleTerminals, List.range_succ, List.map_append, ← List.cons_append,
    declareEach_append]
  rfl

/-- The definition of `n` rules has them under the first numbers, and has noted no others. -/
structure HasRules (d : Definition) (n : Nat) : Prop where
  numbers : ∃ rules, Numbers d.rules 1 rules ∧ rules.length = n
  name : d.nonterminals[1]? = some "S"
  notes_iff : ∀ t, d.Notes 1 [.terminal t] ↔ t < n

theorem HasRules.size_eq {n : Nat} (h : d.HasRules n) : d.rules.size = n := by
  obtain ⟨rules, hrules, rfl⟩ := h.numbers
  exact hrules.size_eq

/-- While there are numbers left, the rules take effect one by one. -/
theorem hasRules_withRules {n : Nat} (hn : n < idLimit) : (withRules n).HasRules n := by
  induction n with
  | zero =>
    refine ⟨⟨[], numbers_empty 1, rfl⟩, by decide +kernel, fun t => ?_⟩
    have hnone : (withRules 0).productions = ∅ := rfl
    rw [Notes, hnone]
    simp
  | succ n ih =>
    have h := ih (Nat.lt_of_succ_lt hn)
    have hnew : ¬ (withRules n).Notes 1 [.terminal n] := by
      rw [h.notes_iff]
      exact Nat.lt_irrefl n
    rw [withRules_succ, declare, declareRule_of_new hnew (by rw [h.size_eq]; exact hn)]
    refine ⟨?_, h.name, fun t => ?_⟩
    · obtain ⟨rules, hrules, hlength⟩ := h.numbers
      refine ⟨_, Nat.add_comm 1 _ ▸ hrules.push _, ?_⟩
      rw [List.length_append, List.length_singleton, hlength]
    · have hnotes : ((withRules n).noting 1 [.terminal n]).Notes 1 [.terminal t] ↔
          1 = 1 ∧ [Symbol.terminal n] = [.terminal t] ∨ (withRules n).Notes 1 [.terminal t] :=
        notes_noting_iff
      rw [h.notes_iff] at hnotes
      refine hnotes.trans ?_
      simp only [true_and, List.cons.injEq, Symbol.terminal.injEq, and_true]
      omega

/-- When all numbers are in use, a new rule is refused for want of a number. -/
theorem HasRules.declare_new {n : Nat} (h : d.HasRules n) (hn : n + 1 = idLimit) :
    d.declare (.rule 1 [.terminal n] none) =
      (.error (.tooMany .rules), d.noting 1 [.terminal n]) := by
  refine declareRule_of_full ?_ ?_ none
  · rw [h.notes_iff]
    exact Nat.lt_irrefl _
  · exact Nat.le_of_eq (by rw [h.size_eq, hn])

/-- When it is asked for again, it is refused as a duplicate. -/
theorem HasRules.declare_again {n : Nat} (h : d.HasRules n) :
    (d.noting 1 [.terminal n]).declare (.rule 1 [.terminal n] none) =
      (.error (.duplicateRule "S"), d.noting 1 [.terminal n]) := by
  rw [declare, declareRule_of_notes (notes_noting_iff.mpr (.inl ⟨rfl, rfl⟩)), noting, h.name]
  rfl

theorem hasRules_most : (withRules 65535).HasRules 65535 :=
  hasRules_withRules (Nat.lt_of_succ_le (Nat.le_of_eq rfl))

theorem declare_withRules :
    (withRules 65535).declare (.rule 1 [.terminal 65535] none) =
      (.error (.tooMany .rules), (withRules 65535).noting 1 [.terminal 65535]) :=
  hasRules_most.declare_new rfl

theorem refused_changes_repetition_only_withRules :
    (withRules 65535).declare (.rule 1 [.terminal 65535] none) =
        (.error (.tooMany .rules), (withRules 65535).noting 1 [.terminal 65535]) ∧
      ∀ later, let d := withRules 65535
        let d' := (withRules 65535).noting 1 [.terminal 65535]
        (d'.declareEach later).2.finish = (d.declareEach later).2.finish ∧
          match later.findIdx? (·.sides? = some (1, [.terminal 65535])) with
          | none => (d'.declareEach later).1 = (d.declareEach later).1
          | some i => (d.declareEach later).1[i]? = some (.error (.tooMany .rules)) ∧
              ∃ name, (d'.declareEach later).1 =
                (d.declareEach later).1.set i (.error (.duplicateRule name)) := by
  refine ⟨declare_withRules, fun later => ?_⟩
  obtain ⟨hfinish, _, hresults⟩ := refused_changes_repetition_only declare_withRules later
  exact ⟨hfinish, hresults rfl⟩

/-- A rule that was refused for want of a number is refused as a duplicate the next time, where it
would be refused for want of a number if it had not been asked for before. -/
theorem duplicateRule_after_tooMany :
    ((withRules 65535).declare (.rule 1 [.terminal 65535] none)).1 = .error (.tooMany .rules) ∧
      (((withRules 65535).declare (.rule 1 [.terminal 65535] none)).2.declareEach
        [.rule 1 [.terminal 65535] none]).1 = [.error (.duplicateRule "S")] ∧
      ((withRules 65535).declareEach [.rule 1 [.terminal 65535] none]).1 =
        [.error (.tooMany .rules)] := by
  simp only [results_declareEach_cons, declareEach_nil, declare_withRules,
    hasRules_most.declare_again, and_self]

end Definition
end ParserGen
