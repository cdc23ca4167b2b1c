import Mathlib.Data.List.Nodup
import ParserGen.Automaton.Conflict
import ParserGen.Proofs.Grammar.RuleTable

/-!
# What the resolution of conflicts depends on

Whether actions conflict on a terminal, and whether precedences settle the conflict, can be told
from the competing reductions two at a time.  Both are therefore kept when a state gains reductions,
as long as no two of them are new to each other.

Main results:

- Theorem `exists_resolution_iff`: when there is a conflict.
- Theorem `exists_arbitrary_iff`: when a conflict is not settled by precedences.
- Theorems `overruled_some_iff` and `overruled_none_iff`: when it is not settled by shifting.
- Theorems `resolveShiftReduce_of_agreed` and `resolveShiftReduce_of_not_agreed`: how a shift fares
  against reductions.
-/

namespace ParserGen

variable {g : Grammar} {t : Nat} {shift : Option Nat} {reduces : List Nat}

/-! ## Agreeing preferences -/

namespace Preference

/-- Preferences agree with one of them if they are all the same. -/
theorem agree_some_iff {q : Preference} {preferences : List (Option Preference)}
    {x : Option Preference} :
    agree (some q) preferences = .ok x ↔ x = some q ∧ ∀ p ∈ preferences, p = some q := by
  induction preferences with
  | nil =>
    simp only [agree, Except.ok.injEq, List.not_mem_nil, false_implies, implies_true, and_true]
    exact eq_comm
  | cons p rest ih =>
    cases p with
    | none => simp [agree]
    | some p =>
      by_cases hqp : q = p
      · subst hqp
        simp [agree, ih]
      · have hpq : p ≠ q := Ne.symm hqp
        simp [agree, hqp, hpq]

/-- Preferences agree if they are all the same. -/
theorem agree_none_iff {preferences : List (Option Preference)} (hne : preferences ≠ [])
    {x : Option Preference} :
    agree none preferences = .ok x ↔ ∃ q, x = some q ∧ ∀ p ∈ preferences, p = some q := by
  cases preferences with
  | nil => exact absurd rfl hne
  | cons p rest =>
    cases p with
    | none =>
      simp only [agree, reduceCtorEq, false_iff, not_exists, not_and]
      intro q _ hall
      cases hall none List.mem_cons_self
    | some p =>
      simp only [agree, agree_some_iff, List.mem_cons, forall_eq_or_imp, Option.some.injEq]
      constructor
      · rintro ⟨rfl, hall⟩
        exact ⟨p, rfl, rfl, hall⟩
      · rintro ⟨q, rfl, rfl, hall⟩
        exact ⟨rfl, hall⟩

end Preference

/-- Which of a terminal and a rule the precedences prefer. -/
def rulePreference (g : Grammar) (t r : Nat) : Option Preference :=
  Preference.between (g.precedenceOf t) (g.rules[r]?.bind (·.precedence g))

/-- The preference that all reductions share, if there is one. -/
def Agreed (g : Grammar) (t : Nat) (reduces : List Nat) (p : Preference) : Prop :=
  ∀ r ∈ reduces, rulePreference g t r = some p

/-- The preferences of reductions agree if the reductions do. -/
theorem agree_preferences_iff (hne : reduces ≠ []) {x : Option Preference} :
    Preference.agree none (reduces.map (rulePreference g t)) = .ok x ↔
      ∃ p, x = some p ∧ Agreed g t reduces p := by
  rw [Preference.agree_none_iff fun hnil => hne (List.map_eq_nil_iff.mp hnil)]
  simp only [List.mem_map, forall_exists_index, and_imp, forall_apply_eq_imp_iff₂, Agreed]

/-! ## A shift against reductions -/

/-- If the precedences agree, they decide between the shift and the reductions. -/
theorem resolveShiftReduce_of_agreed (next : Nat) (hne : reduces ≠ []) {p : Preference}
    (hp : Agreed g t reduces p) :
    resolveShiftReduce g t next reduces =
      match p, reduces with
      | .shift, _ => (.shift next, .precedence)
      | .neither, _ => (.fail, .precedence)
      | .reduce, [r] => (reduceOrAccept r, .precedence)
      | .reduce, _ => (earliestReduction g reduces, .arbitrary .multipleReductions) := by
  have hagree : Preference.agree none (reduces.map fun r =>
      Preference.between (g.precedenceOf t) (g.rules[r]?.bind (·.precedence g))) = .ok (some p) :=
    (agree_preferences_iff hne).mpr ⟨p, rfl, hp⟩
  simp only [resolveShiftReduce, hagree]
  cases p with
  | shift => rfl
  | neither => rfl
  | reduce => rcases reduces with _ | ⟨r, _ | ⟨r', rest⟩⟩ <;> rfl

/-- If they fail to agree, the shift is taken. -/
theorem resolveShiftReduce_of_error (next : Nat) {reason : ConflictReason}
    (h : Preference.agree none (reduces.map (rulePreference g t)) = .error reason) :
    resolveShiftReduce g t next reduces = (.shift next, .arbitrary reason) := by
  have herror : Preference.agree none (reduces.map fun r =>
      Preference.between (g.precedenceOf t) (g.rules[r]?.bind (·.precedence g))) =
        .error reason := h
  simp only [resolveShiftReduce, herror]

/-- Reductions that do not agree have a reason not to. -/
theorem exists_error_of_not_agreed (hne : reduces ≠ []) (hnot : ∀ p, ¬ Agreed g t reduces p) :
    ∃ reason, Preference.agree none (reduces.map (rulePreference g t)) = .error reason := by
  cases hagree : Preference.agree none (reduces.map (rulePreference g t)) with
  | error reason => exact ⟨reason, rfl⟩
  | ok x =>
    obtain ⟨p, _, hp⟩ := (agree_preferences_iff hne).mp hagree
    exact absurd hp (hnot p)

/-- If the reductions do not agree, the shift is chosen arbitrarily. -/
theorem resolveShiftReduce_of_not_agreed (next : Nat) (hne : reduces ≠ [])
    (hnot : ∀ p, ¬ Agreed g t reduces p) :
    ∃ reason, resolveShiftReduce g t next reduces = (.shift next, .arbitrary reason) := by
  obtain ⟨reason, hreason⟩ := exists_error_of_not_agreed hne hnot
  exact ⟨reason, resolveShiftReduce_of_error next hreason⟩

/-! ## Conflicts -/

/-- Two reductions, maybe the same one twice, make for a conflict of the given kind. -/
def Collides (shift : Option Nat) : ConflictKind → Nat → Nat → Prop
  | .shiftReduce, _, _ => shift ≠ none
  | .reduceReduce, r, r' => shift = none ∧ r ≠ r'

/-- Two reductions, maybe the same one twice, make for a conflict that precedences do not settle:
without a shift any two different ones do, with a shift those that it does not fare the same
against, and different ones that are both preferred to it. -/
def Disputed (g : Grammar) (t : Nat) (shift : Option Nat) (r r' : Nat) : Prop :=
  match shift with
  | none => r ≠ r'
  | some _ =>
      rulePreference g t r = none ∨ rulePreference g t r ≠ rulePreference g t r' ∨
        r ≠ r' ∧ rulePreference g t r = some .reduce

/-- Where nothing is reduced there is no conflict. -/
theorem resolve_nil (g : Grammar) (t : Nat) (shift : Option Nat) :
    (resolve g t shift []).2 = none := by
  cases shift <;> rfl

/-- A shift that competes with reductions is a conflict. -/
theorem resolve_some (g : Grammar) (t next : Nat) (hne : reduces ≠ []) :
    resolve g t (some next) reduces =
      ((resolveShiftReduce g t next reduces).1,
        some (.shiftReduce, (resolveShiftReduce g t next reduces).2)) := by
  cases reduces with
  | nil => exact absurd rfl hne
  | cons r rest => rfl

theorem exists_ne_of_nodup {r r' : Nat} {rest : List Nat} (hnodup : (r :: r' :: rest).Nodup) :
    ∃ a ∈ r :: r' :: rest, ∃ b ∈ r :: r' :: rest, a ≠ b := by
  refine ⟨r, List.mem_cons_self, r', List.mem_cons_of_mem _ List.mem_cons_self, ?_⟩
  rintro rfl
  exact (List.nodup_cons.mp hnodup).1 List.mem_cons_self

/-- There is a conflict if and only if two of the reductions make for one. -/
theorem exists_resolution_iff (hnodup : reduces.Nodup) {kind : ConflictKind} :
    (∃ resolution, (resolve g t shift reduces).2 = some (kind, resolution)) ↔
      ∃ r ∈ reduces, ∃ r' ∈ reduces, Collides shift kind r r' := by
  cases shift with
  | some next =>
    by_cases hne : reduces = []
    · subst hne
      simp [resolve_nil]
    · rw [resolve_some g t next hne]
      obtain ⟨r, hr⟩ := List.exists_mem_of_ne_nil _ hne
      cases kind with
      | shiftReduce =>
        refine iff_of_true ⟨_, rfl⟩ ⟨r, hr, r, hr, ?_⟩
        exact Option.some_ne_none next
      | reduceReduce => simp [Collides]
  | none =>
    rcases reduces with _ | ⟨r, _ | ⟨r', rest⟩⟩
    · simp [resolve_nil]
    · cases kind <;> simp [resolve, Collides]
    · obtain ⟨a, ha, b, hb, hab⟩ := exists_ne_of_nodup hnodup
      cases kind with
      | shiftReduce => simp [resolve, Collides]
      | reduceReduce => exact iff_of_true ⟨_, rfl⟩ ⟨a, ha, b, hb, rfl, hab⟩

/-- Reductions that do not agree include two that do not. -/
theorem exists_disputed_of_not_agreed {next : Nat} (hne : reduces ≠ [])
    (hnot : ∀ p, ¬ Agreed g t reduces p) :
    ∃ r ∈ reduces, ∃ r' ∈ reduces, Disputed g t (some next) r r' := by
  obtain ⟨r, hr⟩ := List.exists_mem_of_ne_nil _ hne
  cases hp : rulePreference g t r with
  | none => exact ⟨r, hr, r, hr, Or.inl hp⟩
  | some p =>
    have hother : ∃ r' ∈ reduces, rulePreference g t r' ≠ some p := by
      by_contra hall
      exact hnot p fun r' hr' => by_contra fun hne' => hall ⟨r', hr', hne'⟩
    obtain ⟨r', hr', hne'⟩ := hother
    refine ⟨r, hr, r', hr', Or.inr (Or.inl ?_)⟩
    rw [hp]
    exact Ne.symm hne'

/-- A conflict is left to convention if and only if two of the reductions dispute it. -/
theorem exists_arbitrary_iff (hnodup : reduces.Nodup) :
    (∃ kind reason, (resolve g t shift reduces).2 = some (kind, .arbitrary reason)) ↔
      ∃ r ∈ reduces, ∃ r' ∈ reduces, Disputed g t shift r r' := by
  cases shift with
  | none =>
    rcases reduces with _ | ⟨r, _ | ⟨r', rest⟩⟩
    · simp [resolve_nil]
    · simp [resolve, Disputed]
    · obtain ⟨a, ha, b, hb, hab⟩ := exists_ne_of_nodup hnodup
      exact iff_of_true ⟨_, _, rfl⟩ ⟨a, ha, b, hb, hab⟩
  | some next =>
    by_cases hne : reduces = []
    · subst hne
      simp [resolve_nil]
    rw [resolve_some g t next hne]
    by_cases hagreed : ∃ p, Agreed g t reduces p
    · obtain ⟨p, hp⟩ := hagreed
      have hdisputed : (∃ r ∈ reduces, ∃ r' ∈ reduces, Disputed g t (some next) r r') ↔
          p = .reduce ∧ ∃ r ∈ reduces, ∃ r' ∈ reduces, r ≠ r' := by
        constructor
        · rintro ⟨r, hr, r', hr', hnone | hdiffer | ⟨hrr', hreduce⟩⟩
          · rw [hp r hr] at hnone
            cases hnone
          · rw [hp r hr, hp r' hr'] at hdiffer
            exact absurd rfl hdiffer
          · rw [hp r hr] at hreduce
            exact ⟨Option.some.inj hreduce, r, hr, r', hr', hrr'⟩
        · rintro ⟨rfl, r, hr, r', hr', hrr'⟩
          exact ⟨r, hr, r', hr', Or.inr (Or.inr ⟨hrr', hp r hr⟩)⟩
      rw [hdisputed, resolveShiftReduce_of_agreed next hne hp]
      cases p with
      | shift => simp
      | neither => simp
      | reduce =>
        rcases reduces with _ | ⟨r, _ | ⟨r', rest⟩⟩
        · exact absurd rfl hne
        · simp
        · exact iff_of_true ⟨_, _, rfl⟩ ⟨rfl, exists_ne_of_nodup hnodup⟩
    · have hnot : ∀ p, ¬ Agreed g t reduces p := fun p hp => hagreed ⟨p, hp⟩
      obtain ⟨reason, hreason⟩ := resolveShiftReduce_of_not_agreed next hne hnot
      rw [hreason]
      exact iff_of_true ⟨_, _, rfl⟩ (exists_disputed_of_not_agreed hne hnot)

/-! ## The chosen action -/

/-- The earliest of some reductions is one of them, and none of them has a smaller order. -/
theorem exists_earliestReduction (g : Grammar) (hne : reduces ≠ []) :
    ∃ r ∈ reduces, earliestReduction g reduces = reduceOrAccept r ∧
      ∀ r' ∈ reduces, g.orderOf r ≤ g.orderOf r' := by
  have hmin := List.minOn?_eq_some_minOn (f := g.orderOf) hne
  refine ⟨_, List.minOn?_mem hmin, ?_, fun r' hr' => ?_⟩
  · rw [earliestReduction, hmin]
    rfl
  · rw [List.minOn_eq_get_minOn?]
    exact List.apply_get_minOn?_le_of_mem hr'

/-- The reduction that is chosen is one of those that compete. -/
theorem earliestReduction_of_ne_nil (g : Grammar) (hne : reduces ≠ []) :
    ∃ r ∈ reduces, earliestReduction g reduces = reduceOrAccept r := by
  obtain ⟨r, hr, heq, _⟩ := exists_earliestReduction g hne
  exact ⟨r, hr, heq⟩

/-- The action is the shift, one of the reductions, or a failure. -/
theorem resolve_cases (g : Grammar) (t : Nat) (shift : Option Nat) (reduces : List Nat) :
    (∃ next, shift = some next ∧ (resolve g t shift reduces).1 = .shift next) ∨
      (∃ r ∈ reduces, (resolve g t shift reduces).1 = reduceOrAccept r) ∨
      (resolve g t shift reduces).1 = .fail := by
  cases shift with
  | none =>
    rcases reduces with _ | ⟨r, _ | ⟨r', rest⟩⟩
    · exact Or.inr (Or.inr rfl)
    · exact Or.inr (Or.inl ⟨r, List.mem_cons_self, rfl⟩)
    · obtain ⟨b, hb, hmin⟩ := earliestReduction_of_ne_nil g (List.cons_ne_nil r (r' :: rest))
      exact Or.inr (Or.inl ⟨b, hb, hmin⟩)
  | some next =>
    by_cases hne : reduces = []
    · subst hne
      exact Or.inl ⟨next, rfl, rfl⟩
    rw [resolve_some g t next hne]
    by_cases hagreed : ∃ p, Agreed g t reduces p
    · obtain ⟨p, hp⟩ := hagreed
      rw [resolveShiftReduce_of_agreed next hne hp]
      cases p with
      | shift => exact Or.inl ⟨next, rfl, rfl⟩
      | neither => exact Or.inr (Or.inr rfl)
      | reduce =>
        rcases reduces with _ | ⟨r, _ | ⟨r', rest⟩⟩
        · exact absurd rfl hne
        · exact Or.inr (Or.inl ⟨r, List.mem_cons_self, rfl⟩)
        · obtain ⟨b, hb, hmin⟩ := earliestReduction_of_ne_nil g hne
          exact Or.inr (Or.inl ⟨b, hb, hmin⟩)
    · have hnot : ∀ p, ¬ Agreed g t reduces p := fun p hp => hagreed ⟨p, hp⟩
      obtain ⟨reason, hreason⟩ := resolveShiftReduce_of_not_agreed next hne hnot
      rw [hreason]
      exact Or.inl ⟨next, rfl, rfl⟩

/-- Without a conflict a possible shift is made. -/
theorem resolve_eq_shift_of_no_conflict {next : Nat}
    (hnone : (resolve g t (some next) reduces).2 = none) :
    (resolve g t (some next) reduces).1 = .shift next := by
  by_cases hne : reduces = []
  · subst hne
    rfl
  · rw [resolve_some g t next hne] at hnone
    cases hnone

/-- Without a conflict a possible reduction is made. -/
theorem resolve_eq_reduce_of_no_conflict {r : Nat} (hr : r ∈ reduces)
    (hnone : (resolve g t shift reduces).2 = none) :
    (resolve g t shift reduces).1 = reduceOrAccept r := by
  have hne : reduces ≠ [] := List.ne_nil_of_mem hr
  cases shift with
  | some next =>
    rw [resolve_some g t next hne] at hnone
    cases hnone
  | none =>
    rcases reduces with _ | ⟨r', _ | ⟨r'', rest⟩⟩
    · exact absurd rfl hne
    · rw [List.mem_singleton.mp hr]
      rfl
    · cases hnone

/-! ## Conflicts that are not settled by shifting -/

/-- There is a conflict, and the shift is not what is done. -/
def Overruled (g : Grammar) (t : Nat) (shift : Option Nat) (reduces : List Nat) : Prop :=
  (resolve g t shift reduces).2 ≠ none ∧ ∀ next, (resolve g t shift reduces).1 ≠ .shift next

/-- A reduction is no shift. -/
theorem reduceOrAccept_ne_shift (r next : Nat) : reduceOrAccept r ≠ .shift next := by
  unfold reduceOrAccept
  split <;> nofun

/-- A shift is overruled if all reductions are preferred to it, or it is forbidden next to any of
them. -/
theorem overruled_some_iff {next : Nat} :
    Overruled g t (some next) reduces ↔
      reduces ≠ [] ∧ ∃ p, p ≠ .shift ∧ Agreed g t reduces p := by
  by_cases hne : reduces = []
  · subst hne
    simp [Overruled, resolve_nil]
  rw [Overruled, resolve_some g t next hne]
  by_cases hagreed : ∃ p, Agreed g t reduces p
  · obtain ⟨p, hp⟩ := hagreed
    obtain ⟨r, hr⟩ := List.exists_mem_of_ne_nil _ hne
    have hunique : ∀ q, Agreed g t reduces q → q = p := by
      intro q hq
      exact Option.some.inj ((hq r hr).symm.trans (hp r hr))
    have hiff : (∃ q, q ≠ .shift ∧ Agreed g t reduces q) ↔ p ≠ .shift := by
      constructor
      · rintro ⟨q, hq, hall⟩
        exact hunique q hall ▸ hq
      · exact fun hshift => ⟨p, hshift, hp⟩
    rw [hiff, resolveShiftReduce_of_agreed next hne hp]
    cases p with
    | shift => simp
    | neither => simp [hne]
    | reduce =>
      refine iff_of_true ⟨Option.some_ne_none _, ?_⟩ ⟨hne, nofun⟩
      rcases reduces with _ | ⟨r, _ | ⟨r', rest⟩⟩
      · exact absurd rfl hne
      · exact reduceOrAccept_ne_shift r
      · obtain ⟨b, _, hmin⟩ := earliestReduction_of_ne_nil g hne
        intro next'
        rw [hmin]
        exact reduceOrAccept_ne_shift b next'
  · have hnot : ∀ p, ¬ Agreed g t reduces p := fun p hp => hagreed ⟨p, hp⟩
    obtain ⟨reason, hreason⟩ := resolveShiftReduce_of_not_agreed next hne hnot
    rw [hreason]
    refine iff_of_false ?_ ?_
    · rintro ⟨_, hshift⟩
      exact hshift next rfl
    · rintro ⟨_, p, _, hp⟩
      exact hnot p hp

theorem overruled_none_iff (hnodup : reduces.Nodup) :
    Overruled g t none reduces ↔ ∃ r ∈ reduces, ∃ r' ∈ reduces, r ≠ r' := by
  rcases reduces with _ | ⟨r, _ | ⟨r', rest⟩⟩
  · simp [Overruled, resolve_nil]
  · simp [Overruled, resolve]
  · obtain ⟨b, _, hmin⟩ := earliestReduction_of_ne_nil g (List.cons_ne_nil r (r' :: rest))
    refine iff_of_true ⟨Option.some_ne_none _, fun next => ?_⟩ (exists_ne_of_nodup hnodup)
    show earliestReduction g (r :: r' :: rest) ≠ .shift next
    rw [hmin]
    exact reduceOrAccept_ne_shift b next

/-- A shift that is not overruled is made. -/
theorem resolve_eq_shift_of_not_overruled {next : Nat}
    (hnot : ¬ Overruled g t (some next) reduces) :
    (resolve g t (some next) reduces).1 = .shift next := by
  cases hsettled : (resolve g t (some next) reduces).2 with
  | none => exact resolve_eq_shift_of_no_conflict hsettled
  | some settled =>
    by_contra hother
    refine hnot ⟨by rw [hsettled]; exact Option.some_ne_none _, fun next' heq => ?_⟩
    rcases resolve_cases g t (some next) reduces with
      ⟨_, hnext, hshift⟩ | ⟨r, _, hreduce⟩ | hfail
    · cases hnext
      exact hother hshift
    · exact reduceOrAccept_ne_shift r next' (hreduce.symm.trans heq)
    · rw [hfail] at heq
      cases heq

/-- Where nothing can be shifted and nothing is overruled, reductions that are added make no
difference. -/
theorem eq_of_subset_of_not_overruled {more : List Nat} (hne : reduces ≠ [])
    (hnodup : more.Nodup) (hnodup' : reduces.Nodup) (hsubset : ∀ r ∈ reduces, r ∈ more)
    (hnot : ¬ Overruled g t none more) : more = reduces := by
  rw [overruled_none_iff hnodup] at hnot
  have hsame : ∀ r ∈ more, ∀ r' ∈ more, r = r' := fun r hr r' hr' =>
    by_contra fun hrr' => hnot ⟨r, hr, r', hr', hrr'⟩
  obtain ⟨r, hr⟩ := List.exists_mem_of_ne_nil _ hne
  have hsingle : ∀ l : List Nat, l.Nodup → r ∈ l → (∀ r' ∈ l, r' = r) → l = [r] := by
    intro l hl hrl hall
    rcases l with _ | ⟨b, _ | ⟨b', rest⟩⟩
    · cases hrl
    · rw [List.mem_singleton.mp hrl]
    · obtain ⟨x, hx, y, hy, hxy⟩ := exists_ne_of_nodup hl
      exact absurd ((hall x hx).trans (hall y hy).symm) hxy
  have hall : ∀ r' ∈ more, r' = r := fun r' hr' => hsame r' hr' r (hsubset r hr)
  rw [hsingle more hnodup (hsubset r hr) hall,
    hsingle reduces hnodup' hr fun r' hr' => hall r' (hsubset r' hr')]

end ParserGen
