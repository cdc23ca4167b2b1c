/-!
# Rounds

Closures, FIRST sets and productivity are all found by going over items or rules in rounds, until a
round reports that it has changed nothing.  The number of rounds is bounded by how often a measure
of the value can still grow.
-/

namespace ParserGen

variable {α β : Type}

/-- Take a step for each entry of a list.  The round reports a change if one of the entries was news
when its turn came. -/
def roundOver (step : α → β → α) (news : α → β → Bool) : List β → α → α × Bool
  | [], x => (x, false)
  | entry :: entries, x =>
      let (y, changed) := roundOver step news entries (step x entry)
      (y, news x entry || changed)

/-- Repeat a round until it reports no change, at most `bound` times. -/
def iterateWhileChanged (round : α → α × Bool) : Nat → α → α
  | 0, x => x
  | bound + 1, x =>
      match round x with
      | (y, true) => iterateWhileChanged round bound y
      | (y, false) => y

/-- How many rounds `iterateWhileChanged` takes, the one that reports no change included. -/
def roundsWhileChanged (round : α → α × Bool) : Nat → α → Nat
  | 0, _ => 0
  | bound + 1, x =>
      match round x with
      | (y, true) => roundsWhileChanged round bound y + 1
      | (_, false) => 1

/-- A property that a round keeps holds of the outcome. -/
theorem iterateWhileChanged_induction {round : α → α × Bool} {motive : α → Prop}
    (keep : ∀ x, motive x → motive (round x).1) (bound : Nat) {x : α} (start : motive x) :
    motive (iterateWhileChanged round bound x) := by
  induction bound generalizing x with
  | zero => exact start
  | succ bound ih =>
    have hnext := keep x start
    simp only [iterateWhileChanged]
    split <;> rename_i y hround <;> rw [hround] at hnext
    · exact ih hnext
    · exact hnext

/-! ## Single rounds -/

/-- If a step brings a property about exactly when its entry is a cause of it, then a value has the
property after all steps if it had it before or some entry is a cause. -/
theorem foldl_iff {step : α → β → α} {motive : α → Prop} {cause : β → Prop}
    (step_iff : ∀ x entry, motive (step x entry) ↔ motive x ∨ cause entry) (entries : List β)
    (x : α) : motive (entries.foldl step x) ↔ motive x ∨ ∃ entry ∈ entries, cause entry := by
  induction entries generalizing x with
  | nil => simp
  | cons entry entries ih =>
    simp only [List.foldl_cons, ih, step_iff, List.mem_cons, exists_eq_or_imp, or_assoc]

/-! ## Reports of changes -/

/-- The round reports a change exactly if it makes one. -/
def ReportsChanges (round : α → α × Bool) : Prop :=
  ∀ x, (round x).2 = true ↔ (round x).1 ≠ x

theorem ReportsChanges.eq_iff {round : α → α × Bool} (h : ReportsChanges round) {x : α} :
    round x = (x, false) ↔ (round x).1 = x := by
  have hiff := h x
  cases hflag : (round x).2 <;> simp_all [Prod.ext_iff]

/-- What a round makes of a value does not depend on what is news. -/
theorem fst_roundOver (step : α → β → α) (news : α → β → Bool) (entries : List β) (x : α) :
    (roundOver step news entries x).1 = entries.foldl step x := by
  induction entries generalizing x with
  | nil => rfl
  | cons entry entries ih => exact ih (step x entry)

/-- If values only ever grow, and news are what makes them grow, a round over a list reports a
change exactly if it makes one: what has grown cannot become what it was. -/
theorem reportsChanges_roundOver (le : α → α → Prop) (refl : ∀ x, le x x)
    (trans : ∀ {x y z}, le x y → le y z → le x z) (antisymm : ∀ {x y}, le x y → le y x → x = y)
    {step : α → β → α} {news : α → β → Bool} (grows : ∀ x entry, le x (step x entry))
    (news_iff : ∀ x entry, news x entry = true ↔ step x entry ≠ x) (entries : List β) :
    ReportsChanges (roundOver step news entries) := by
  suffices h : ∀ x, le x (roundOver step news entries x).1 ∧
      ((roundOver step news entries x).2 = true ↔ (roundOver step news entries x).1 ≠ x) from
    fun x => (h x).2
  induction entries with
  | nil => exact fun x => ⟨refl x, by simp [roundOver]⟩
  | cons entry entries ih =>
    intro x
    obtain ⟨hle, hflag⟩ := ih (step x entry)
    refine ⟨trans (grows x entry) hle, ?_⟩
    simp only [roundOver, Bool.or_eq_true, hflag, news_iff]
    by_cases hsame : step x entry = x
    · simp [hsame]
    · have hgrown : (roundOver step news entries (step x entry)).1 ≠ x := by
        intro hback
        rw [hback] at hle
        exact hsame (antisymm hle (grows x entry))
      simp [hsame, hgrown]

/-- If each change raises a measure that stays within `limit`, the outcome is a fixed point. -/
theorem round_iterateWhileChanged {round : α → α × Bool} (reports : ReportsChanges round)
    {motive : α → Prop} {measure : α → Nat} {limit : Nat}
    (keep : ∀ x, motive x → motive (round x).1)
    (grow : ∀ x, motive x → (round x).1 ≠ x → measure x < measure (round x).1)
    (within : ∀ x, motive x → measure x ≤ limit)
    (bound : Nat) {x : α} (start : motive x) (enough : limit < measure x + bound) :
    round (iterateWhileChanged round bound x) = (iterateWhileChanged round bound x, false) := by
  induction bound generalizing x with
  | zero =>
    have := within x start
    omega
  | succ bound ih =>
    have hreport := reports x
    have hnext := keep x start
    have hgrow := grow x start
    simp only [iterateWhileChanged]
    split <;> rename_i y hround <;> rw [hround] at hreport hnext hgrow
    · have hless : measure x < measure y := hgrow (hreport.mp rfl)
      exact ih hnext (by omega)
    · obtain rfl : y = x := by simpa using hreport
      exact hround

end ParserGen
