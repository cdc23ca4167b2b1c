import ParserGen.Proofs.Automaton.Edits
import ParserGen.Proofs.Automaton.Actions
import ParserGen.Proofs.Automaton.Resolution

/-!
# Actions and conflicts in terms of candidates

The candidates on a terminal in a state are the shift along the edge on it, and the reductions by
the complete items that have it as a lookahead.  Which of them is chosen is stated here without
going through lists of reductions, and shown to be what the action table has.  Conflicts are listed
state by state and terminal by terminal, so there is one at most for each state and terminal.

Main results:

- Theorem `chosen_iff_choice`: the action that is chosen among the candidates.
- Theorem `choice_conflicts_iff`: at least two candidates conflict.
- Theorem `Automaton.pairwise_conflicts`: the order of the conflicts.
- Theorem `Automaton.actions_and_conflicts_exact`: the actions and conflicts of an automaton.
-/

namespace ParserGen

open ItemSet

variable {g : Grammar} {st : State} {t : Nat} {x : Action}

/-- The precedence of a rule, if it has one. -/
def Grammar.precedenceOfRule (g : Grammar) (r : Nat) : Option Precedence :=
  g.rules[r]?.bind (·.precedence g)

/-- What can be done in a state on a terminal. -/
inductive Candidate (g : Grammar) (st : State) (t : Nat) : Action → Prop
  | shift {next : Nat} : st.target? (.terminal t) = some next → Candidate g st t (.shift next)
  | reduce {i : Item} : i ∈ st.items → i.isComplete g = true → t ∈ st.items.lookaheads i →
      Candidate g st t (reduceOrAccept i.rule)

/-- What is done in a state on a terminal. -/
inductive Chosen (g : Grammar) (st : State) (t : Nat) : Action → Prop
  | single {x : Action} : Candidate g st t x → (∀ y, Candidate g st t y → y = x) → Chosen g st t x
  /-- Without a shift the earliest rule wins. -/
  | earliest {r : Nat} : (∀ next, ¬ Candidate g st t (.shift next)) →
      Candidate g st t (reduceOrAccept r) →
      (∀ r', Candidate g st t (reduceOrAccept r') → r ≤ r') → Chosen g st t (reduceOrAccept r)
  | missing {next r : Nat} : Candidate g st t (.shift next) → Candidate g st t (reduceOrAccept r) →
      g.precedenceOf t = none ∨ g.precedenceOfRule r = none → Chosen g st t (.shift next)
  | differing {next r r' : Nat} : Candidate g st t (.shift next) →
      Candidate g st t (reduceOrAccept r) → Candidate g st t (reduceOrAccept r') →
      rulePreference g t r ≠ rulePreference g t r' → Chosen g st t (.shift next)
  | shifting {next : Nat} : Candidate g st t (.shift next) →
      (∀ r, Candidate g st t (reduceOrAccept r) → rulePreference g t r = some .shift) →
      Chosen g st t (.shift next)
  /-- Operators of one priority that do not associate must not meet. -/
  | forbidden {next r : Nat} {p : Precedence} : Candidate g st t (.shift next) →
      Candidate g st t (reduceOrAccept r) → g.precedenceOf t = some p → p.assoc = .nonassoc →
      (∀ r, Candidate g st t (reduceOrAccept r) →
        ∃ q, g.precedenceOfRule r = some q ∧ q.priority = p.priority) → Chosen g st t .fail
  | reducing {next r : Nat} : Candidate g st t (.shift next) →
      Candidate g st t (reduceOrAccept r) →
      (∀ r', Candidate g st t (reduceOrAccept r') →
        rulePreference g t r' = some .reduce ∧ r ≤ r') → Chosen g st t (reduceOrAccept r)

/-! ## Preferences -/

theorem rulePreference_eq (g : Grammar) (t r : Nat) :
    rulePreference g t r = Preference.between (g.precedenceOf t) (g.precedenceOfRule r) := rfl

/-- A shift and a reduction cannot be compared if one of them has no precedence. -/
theorem rulePreference_eq_none_iff {r : Nat} :
    rulePreference g t r = none ↔ g.precedenceOf t = none ∨ g.precedenceOfRule r = none := by
  rw [rulePreference_eq]
  cases g.precedenceOf t with
  | none => simp [Preference.between]
  | some p =>
    cases g.precedenceOfRule r with
    | none => simp [Preference.between]
    | some q =>
      simp only [Preference.between, reduceCtorEq, or_self, iff_false]
      split_ifs
      · simp
      · simp
      · cases p.assoc <;> simp

/-- Neither is preferred if both have the same priority and the terminal does not associate. -/
theorem rulePreference_eq_neither_iff {r : Nat} :
    rulePreference g t r = some .neither ↔ ∃ p q, g.precedenceOf t = some p ∧
      g.precedenceOfRule r = some q ∧ q.priority = p.priority ∧ p.assoc = .nonassoc := by
  rw [rulePreference_eq]
  cases g.precedenceOf t with
  | none => simp [Preference.between]
  | some p =>
    cases g.precedenceOfRule r with
    | none => simp [Preference.between]
    | some q =>
      simp only [Preference.between, Option.some.injEq, exists_and_left, exists_eq_left']
      split_ifs with hlt hgt
      · simp [hlt.ne]
      · simp [hgt.ne']
      · have hsame : q.priority = p.priority := by omega
        cases hassoc : p.assoc <;> simp [hsame]

/-! ## Candidates -/

theorem reduceOrAccept_inj {r r' : Nat} : reduceOrAccept r = reduceOrAccept r' ↔ r = r' := by
  unfold reduceOrAccept
  split_ifs with h h' h'
  · simp [h, h']
  · simp [h, Ne.symm h']
  · simp [h, h']
  · simp

theorem candidate_shift_iff {next : Nat} :
    Candidate g st t (.shift next) ↔ st.target? (.terminal t) = some next := by
  refine ⟨fun h => ?_, .shift⟩
  generalize hx : Action.shift next = x at h
  cases h with
  | shift htarget =>
    cases hx
    exact htarget
  | reduce _ _ _ => exact absurd hx.symm (reduceOrAccept_ne_shift _ _)

theorem candidate_reduce_iff {r : Nat} :
    Candidate g st t (reduceOrAccept r) ↔ r ∈ reductionsOn g st.items t := by
  rw [mem_reductionsOn]
  constructor
  · intro h
    generalize hx : reduceOrAccept r = x at h
    cases h with
    | shift _ => exact absurd hx (reduceOrAccept_ne_shift _ _)
    | reduce hi hcomplete ht => exact ⟨_, hi, hcomplete, ht, (reduceOrAccept_inj.mp hx).symm⟩
  · rintro ⟨i, hi, hcomplete, ht, rfl⟩
    exact .reduce hi hcomplete ht

theorem Candidate.cases_lists (h : Candidate g st t x) :
    (∃ next, st.target? (.terminal t) = some next ∧ x = .shift next) ∨
      ∃ r ∈ reductionsOn g st.items t, x = reduceOrAccept r := by
  cases h with
  | shift htarget => exact Or.inl ⟨_, htarget, rfl⟩
  | reduce hi hcomplete ht =>
    exact Or.inr ⟨_, mem_reductionsOn.mpr ⟨_, hi, hcomplete, ht, rfl⟩, rfl⟩

/-- Whatever is chosen, there is a candidate. -/
theorem Chosen.exists_candidate (h : Chosen g st t x) : ∃ y, Candidate g st t y := by
  cases h with
  | single hx _ => exact ⟨_, hx⟩
  | earliest _ hr _ => exact ⟨_, hr⟩
  | missing hshift _ _ => exact ⟨_, hshift⟩
  | differing hshift _ _ _ => exact ⟨_, hshift⟩
  | shifting hshift _ => exact ⟨_, hshift⟩
  | forbidden hshift _ _ _ _ => exact ⟨_, hshift⟩
  | reducing hshift _ _ => exact ⟨_, hshift⟩

/-! ## The choice among candidates -/

/-- Reductions are by rules that are there. -/
theorem orderOf_of_mem_reductionsOn (h : g.InOrder) {r : Nat}
    (hr : r ∈ reductionsOn g st.items t) : g.orderOf r = r := by
  obtain ⟨i, _, hcomplete, _, rfl⟩ := mem_reductionsOn.mp hr
  unfold Item.isComplete at hcomplete
  split at hcomplete
  · rename_i rule hrule
    exact h.orderOf_eq hrule
  · cases hcomplete

/-- The reduction by the rule of the least order is that by the rule of the least number. -/
theorem earliestReduction_eq (h : g.InOrder) {r : Nat} (hr : r ∈ reductionsOn g st.items t)
    (hle : ∀ r' ∈ reductionsOn g st.items t, r ≤ r') :
    earliestReduction g (reductionsOn g st.items t) = reduceOrAccept r := by
  obtain ⟨r', hr', hearliest, hleast⟩ := exists_earliestReduction g (List.ne_nil_of_mem hr)
  have hle' := hleast r hr
  rw [orderOf_of_mem_reductionsOn h hr', orderOf_of_mem_reductionsOn h hr] at hle'
  rw [hearliest, Nat.le_antisymm hle' (hle r' hr')]

theorem exists_least {reduces : List Nat} (hne : reduces ≠ []) :
    ∃ r ∈ reduces, ∀ r' ∈ reduces, r ≤ r' := by
  cases hmin : reduces.min? with
  | none => exact absurd (List.min?_eq_none_iff.mp hmin) hne
  | some r => exact ⟨r, List.min?_eq_some_iff.mp hmin⟩

/-- Without a shift the earliest reduction is made. -/
theorem resolve_none (g : Grammar) (t : Nat) {reduces : List Nat} (hne : reduces ≠ []) :
    (resolve g t none reduces).1 = earliestReduction g reduces := by
  rcases reduces with _ | ⟨r, _ | ⟨r', rest⟩⟩
  · exact absurd rfl hne
  · rfl
  · rfl

/-- If all reductions are preferred to the shift, the earliest one is made. -/
theorem resolveShiftReduce_of_reduce {reduces : List Nat} (next : Nat) (hne : reduces ≠ [])
    (hreduce : Agreed g t reduces .reduce) :
    (resolveShiftReduce g t next reduces).1 = earliestReduction g reduces := by
  rw [resolveShiftReduce_of_agreed next hne hreduce]
  rcases reduces with _ | ⟨r, _ | ⟨r', rest⟩⟩
  · exact absurd rfl hne
  · rfl
  · rfl

/-- If the preferences do not agree, the shift is made. -/
theorem resolve_of_not_agreed {reduces : List Nat} (next : Nat) (hne : reduces ≠ [])
    (hnot : ∀ p, ¬ Agreed g t reduces p) :
    (resolve g t (some next) reduces).1 = .shift next := by
  obtain ⟨reason, hreason⟩ := resolveShiftReduce_of_not_agreed next hne hnot
  rw [resolve_some g t next hne, hreason]

/-- Reductions that fare the same against the shift. -/
theorem chosen_of_agreed (h : g.InOrder) {next : Nat} (hnext : st.target? (.terminal t) = some next)
    (hne : reductionsOn g st.items t ≠ []) {p : Preference}
    (hp : Agreed g t (reductionsOn g st.items t) p) :
    Chosen g st t (resolveShiftReduce g t next (reductionsOn g st.items t)).1 := by
  obtain ⟨r, hr, hle⟩ := exists_least hne
  have hcandidate := candidate_reduce_iff.mpr hr
  cases p with
  | shift =>
    rw [resolveShiftReduce_of_agreed next hne hp]
    exact .shifting (.shift hnext) fun r' hr' => hp r' (candidate_reduce_iff.mp hr')
  | neither =>
    rw [resolveShiftReduce_of_agreed next hne hp]
    obtain ⟨p, _, hterminal, _, _, hassoc⟩ := rulePreference_eq_neither_iff.mp (hp r hr)
    refine .forbidden (.shift hnext) hcandidate hterminal hassoc fun r' hr' => ?_
    obtain ⟨p', q, hterminal', hrule, hpriority, _⟩ :=
      rulePreference_eq_neither_iff.mp (hp r' (candidate_reduce_iff.mp hr'))
    rw [hterminal, Option.some.injEq] at hterminal'
    exact ⟨q, hrule, hterminal' ▸ hpriority⟩
  | reduce =>
    rw [resolveShiftReduce_of_reduce next hne hp, earliestReduction_eq h hr hle]
    refine .reducing (.shift hnext) hcandidate fun r' hr' => ?_
    rw [candidate_reduce_iff] at hr'
    exact ⟨hp r' hr', hle r' hr'⟩

/-- Reductions that do not fare the same against the shift. -/
theorem chosen_of_not_agreed {next : Nat} (hnext : st.target? (.terminal t) = some next)
    (hne : reductionsOn g st.items t ≠ [])
    (hnot : ∀ p, ¬ Agreed g t (reductionsOn g st.items t) p) : Chosen g st t (.shift next) := by
  obtain ⟨r, hr⟩ := List.exists_mem_of_ne_nil _ hne
  have hcandidate := candidate_reduce_iff.mpr hr
  cases hp : rulePreference g t r with
  | none => exact .missing (.shift hnext) hcandidate (rulePreference_eq_none_iff.mp hp)
  | some p =>
    have hother : ∃ r' ∈ reductionsOn g st.items t, rulePreference g t r' ≠ some p := by
      by_contra hall
      exact hnot p fun r' hr' => by_contra fun hne' => hall ⟨r', hr', hne'⟩
    obtain ⟨r', hr', hne'⟩ := hother
    exact .differing (.shift hnext) hcandidate (candidate_reduce_iff.mpr hr') (hp ▸ hne'.symm)

/-- If there is a candidate, what is chosen among the competing actions is chosen among the
candidates. -/
theorem chosen_choice (h : g.InOrder) (hcandidate : ∃ y, Candidate g st t y) :
    Chosen g st t (st.choice g t).1 := by
  obtain ⟨y, hy⟩ := hcandidate
  cases hshift : st.target? (.terminal t) with
  | none =>
    have hne : reductionsOn g st.items t ≠ [] := by
      rcases hy.cases_lists with ⟨next, hnext, _⟩ | ⟨r, hr, _⟩
      · simp [hshift] at hnext
      · exact List.ne_nil_of_mem hr
    obtain ⟨r, hr, hle⟩ := exists_least hne
    rw [State.choice, hshift, resolve_none g t hne, earliestReduction_eq h hr hle]
    refine .earliest (fun next hnext => ?_) (candidate_reduce_iff.mpr hr)
      fun r' hr' => hle r' (candidate_reduce_iff.mp hr')
    simp [candidate_shift_iff, hshift] at hnext
  | some next =>
    by_cases hne : reductionsOn g st.items t = []
    · rw [State.choice, hshift, hne]
      refine .shifting (.shift hshift) fun r hr => ?_
      simp [candidate_reduce_iff, hne] at hr
    by_cases hagreed : ∃ p, Agreed g t (reductionsOn g st.items t) p
    · obtain ⟨p, hp⟩ := hagreed
      rw [State.choice, hshift, resolve_some g t next hne]
      exact chosen_of_agreed h hshift hne hp
    · have hnot : ∀ p, ¬ Agreed g t (reductionsOn g st.items t) p := fun p hp => hagreed ⟨p, hp⟩
      rw [State.choice, hshift, resolve_of_not_agreed next hne hnot]
      exact chosen_of_not_agreed hshift hne hnot

/-- What is chosen among the candidates is chosen among the competing actions. -/
theorem Chosen.eq_choice (h : Chosen g st t x) (horder : g.InOrder) :
    (st.choice g t).1 = x := by
  have hagreed : ∀ {p : Preference},
      (∀ r, Candidate g st t (reduceOrAccept r) → rulePreference g t r = some p) →
      Agreed g t (reductionsOn g st.items t) p :=
    fun hall r hr => hall r (candidate_reduce_iff.mpr hr)
  have hne : ∀ {r : Nat}, Candidate g st t (reduceOrAccept r) → reductionsOn g st.items t ≠ [] :=
    fun hr => List.ne_nil_of_mem (candidate_reduce_iff.mp hr)
  have hearliest : ∀ {r : Nat}, Candidate g st t (reduceOrAccept r) →
      (∀ r', Candidate g st t (reduceOrAccept r') → r ≤ r') →
      earliestReduction g (reductionsOn g st.items t) = reduceOrAccept r := fun hr hle =>
    earliestReduction_eq horder (candidate_reduce_iff.mp hr) fun r' hr' =>
      hle r' (candidate_reduce_iff.mpr hr')
  have hnoShift : (∀ next, ¬ Candidate g st t (.shift next)) → st.target? (.terminal t) = none :=
    fun hnone => Option.eq_none_iff_forall_ne_some.mpr fun next hnext => hnone next (.shift hnext)
  rw [State.choice]
  cases h with
  | single hx hunique =>
    cases hx with
    | @shift next hnext =>
      have hempty : reductionsOn g st.items t = [] := by
        refine List.eq_nil_iff_forall_not_mem.mpr fun r hr => ?_
        exact reduceOrAccept_ne_shift r next (hunique _ (candidate_reduce_iff.mpr hr))
      rw [hnext, hempty]
      rfl
    | @reduce i hi hcomplete ht =>
      have hr : Candidate g st t (reduceOrAccept i.rule) := .reduce hi hcomplete ht
      have hnone := hnoShift fun next hnext =>
        reduceOrAccept_ne_shift i.rule next (hunique _ hnext).symm
      rw [hnone, resolve_none g t (hne hr)]
      exact hearliest hr fun r' hr' => (reduceOrAccept_inj.mp (hunique _ hr')).ge
  | earliest hnone hr hle =>
    rw [hnoShift hnone, resolve_none g t (hne hr)]
    exact hearliest hr hle
  | @missing next r hnext hr hmissing =>
    rw [candidate_shift_iff.mp hnext]
    refine resolve_of_not_agreed next (hne hr) fun p hp => ?_
    rw [← rulePreference_eq_none_iff, hp r (candidate_reduce_iff.mp hr)] at hmissing
    cases hmissing
  | @differing next r r' hnext hr hr' hdiffer =>
    rw [candidate_shift_iff.mp hnext]
    refine resolve_of_not_agreed next (hne hr) fun p hp => hdiffer ?_
    rw [hp r (candidate_reduce_iff.mp hr), hp r' (candidate_reduce_iff.mp hr')]
  | @shifting next hnext hall =>
    rw [candidate_shift_iff.mp hnext]
    by_cases hempty : reductionsOn g st.items t = []
    · rw [hempty]
      rfl
    · rw [resolve_some g t next hempty, resolveShiftReduce_of_agreed next hempty (hagreed hall)]
  | @forbidden next r p hnext hr hp hassoc hall =>
    have hneither : Agreed g t (reductionsOn g st.items t) .neither := hagreed fun r hr => by
      obtain ⟨q, hq, hpriority⟩ := hall r hr
      exact rulePreference_eq_neither_iff.mpr ⟨p, q, hp, hq, hpriority, hassoc⟩
    rw [candidate_shift_iff.mp hnext, resolve_some g t next (hne hr),
      resolveShiftReduce_of_agreed next (hne hr) hneither]
  | @reducing next r hnext hr hall =>
    rw [candidate_shift_iff.mp hnext, resolve_some g t next (hne hr),
      resolveShiftReduce_of_reduce next (hne hr) (hagreed fun r' hr' => (hall r' hr').1)]
    exact hearliest hr fun r' hr' => (hall r' hr').2

/-- What is chosen among the competing actions is what is chosen among the candidates. -/
theorem chosen_iff_choice (h : g.InOrder) :
    Chosen g st t x ↔ (∃ y, Candidate g st t y) ∧ (st.choice g t).1 = x := by
  constructor
  · exact fun hchosen => ⟨hchosen.exists_candidate, hchosen.eq_choice h⟩
  · rintro ⟨hcandidate, rfl⟩
    exact chosen_choice h hcandidate

/-- Something is reported if and only if there are two candidates. -/
theorem choice_conflicts_iff (hnodup : (reductionsOn g st.items t).Nodup) :
    (∃ kind resolution, (st.choice g t).2 = some (kind, resolution)) ↔
      ∃ x y, Candidate g st t x ∧ Candidate g st t y ∧ x ≠ y := by
  have hcollides : (∃ kind resolution, (st.choice g t).2 = some (kind, resolution)) ↔
      ∃ kind, ∃ r ∈ reductionsOn g st.items t, ∃ r' ∈ reductionsOn g st.items t,
        Collides (st.target? (.terminal t)) kind r r' :=
    exists_congr fun _ => exists_resolution_iff hnodup
  rw [hcollides]
  constructor
  · rintro ⟨kind, r, hr, r', hr', hkind⟩
    rw [← candidate_reduce_iff] at hr hr'
    cases kind with
    | shiftReduce =>
      obtain ⟨next, hnext⟩ := Option.ne_none_iff_exists'.mp hkind
      exact ⟨_, _, .shift hnext, hr, (reduceOrAccept_ne_shift r next).symm⟩
    | reduceReduce => exact ⟨_, _, hr, hr', fun heq => hkind.2 (reduceOrAccept_inj.mp heq)⟩
  · rintro ⟨x, y, hx, hy, hne⟩
    rcases hx.cases_lists with ⟨next, hnext, rfl⟩ | ⟨r, hr, rfl⟩
    · rcases hy.cases_lists with ⟨next', hnext', rfl⟩ | ⟨r, hr, rfl⟩
      · rw [hnext, Option.some.injEq] at hnext'
        exact absurd (congrArg Action.shift hnext') hne
      · exact ⟨.shiftReduce, r, hr, r, hr, by simp [Collides, hnext]⟩
    · rcases hy.cases_lists with ⟨next, hnext, rfl⟩ | ⟨r', hr', rfl⟩
      · exact ⟨.shiftReduce, r, hr, r, hr, by simp [Collides, hnext]⟩
      · cases hshift : st.target? (.terminal t) with
        | some next => exact ⟨.shiftReduce, r, hr, r, hr, by simp [Collides]⟩
        | none => exact ⟨.reduceReduce, r, hr, r', hr', rfl, fun heq => hne (heq ▸ rfl)⟩

/-- Completing the augmented rule is not a reduction. -/
theorem choice_ne_reduce_augmentedRule (g : Grammar) (st : State) (t : Nat) :
    (st.choice g t).1 ≠ .reduce augmentedRule := by
  have hne : ∀ r, reduceOrAccept r ≠ .reduce augmentedRule := fun r => by
    unfold reduceOrAccept
    split_ifs with hr
    · simp
    · simpa using hr
  rcases resolve_cases g t (st.target? (.terminal t)) (reductionsOn g st.items t) with
    ⟨next, _, hchoice⟩ | ⟨r, _, hchoice⟩ | hchoice
  · simp [State.choice, hchoice]
  · rw [State.choice, hchoice]
    exact hne r
  · simp [State.choice, hchoice]

/-! ## The start symbol -/

/-- Candidates do not depend on the start symbol. -/
theorem candidate_withStart (n : Nat) :
    Candidate { g with start := n } st t x ↔ Candidate g st t x := by
  constructor
  · intro h
    cases h with
    | shift htarget => exact .shift htarget
    | reduce hi hcomplete ht => exact .reduce hi hcomplete ht
  · intro h
    cases h with
    | shift htarget => exact .shift htarget
    | reduce hi hcomplete ht => exact .reduce hi hcomplete ht

/-- Nor does the choice among them. -/
theorem chosen_withStart (h : g.InOrder) (n : Nat) :
    Chosen { g with start := n } st t x ↔ Chosen g st t x := by
  have hstart : { g with start := n }.InOrder := h
  rw [chosen_iff_choice hstart, chosen_iff_choice h]
  simp only [candidate_withStart]
  rfl

/-! ## The order of conflicts -/

/-- The conflict `c` is met before `d`: in an earlier state, or in the same one on a smaller
terminal. -/
def Conflict.Before (c d : Conflict) : Prop :=
  c.state < d.state ∨ c.state = d.state ∧ c.terminal < d.terminal

/-- Of conflicts that are listed in order, only one is in a given state on a given terminal. -/
theorem filter_eq_singleton_of_before {conflicts : List Conflict}
    (h : conflicts.Pairwise Conflict.Before) {c : Conflict} (hc : c ∈ conflicts) :
    conflicts.filter (fun d => d.state = c.state ∧ d.terminal = c.terminal) = [c] := by
  have hsorted := h.filter fun d => decide (d.state = c.state ∧ d.terminal = c.terminal)
  have hmem : ∀ d, d ∈ conflicts.filter (fun d => d.state = c.state ∧ d.terminal = c.terminal) ↔
      d ∈ conflicts ∧ d.state = c.state ∧ d.terminal = c.terminal := fun d => by
    rw [List.mem_filter, decide_eq_true_eq]
  generalize conflicts.filter (fun d => d.state = c.state ∧ d.terminal = c.terminal) = found
    at hsorted hmem
  have hfound := (hmem c).mpr ⟨hc, rfl, rfl⟩
  rcases found with _ | ⟨d, _ | ⟨e, rest⟩⟩
  · cases hfound
  · rw [List.mem_singleton.mp hfound]
  · have hbefore := (List.pairwise_cons.mp hsorted).1 e List.mem_cons_self
    have hd := ((hmem d).mp List.mem_cons_self).2
    have he := ((hmem e).mp (List.mem_cons_of_mem _ List.mem_cons_self)).2
    unfold Conflict.Before at hbefore
    omega

/-- A conflict is reported in the state and on the terminal it is met in. -/
theorem actionOn_conflict {s : Nat} {items : ItemSet} {transitions : List (Symbol × Nat)}
    {c : Conflict} (hc : (actionOn g s items transitions t).2 = some c) :
    c.state = s ∧ c.terminal = t := by
  obtain ⟨_, _, rfl⟩ := Option.map_eq_some_iff.mp hc
  exact ⟨rfl, rfl⟩

/-- The conflicts of one state, in their order. -/
theorem pairwise_conflicts_of_rows (g : Grammar) (s : Nat) (items : ItemSet)
    (transitions : List (Symbol × Nat)) :
    (((actionRows g s items transitions).filterMap fun row => row.2.2).Pairwise Conflict.Before) ∧
      ∀ c ∈ (actionRows g s items transitions).filterMap fun row => row.2.2, c.state = s := by
  rw [actionRows, List.filterMap_map]
  constructor
  · refine (IdSet.pairwise_toList _).filterMap _ fun t u htu c hc d hd => ?_
    obtain ⟨hstate, hterminal⟩ := actionOn_conflict hc
    obtain ⟨hstate', hterminal'⟩ := actionOn_conflict hd
    exact Or.inr ⟨hstate.trans hstate'.symm, by rwa [hterminal, hterminal']⟩
  · intro c hc
    obtain ⟨t, _, hc⟩ := List.mem_filterMap.mp hc
    exact (actionOn_conflict hc).1

namespace Automaton

variable {first : FirstTable} {mode : MergeMode} {a : Automaton} {kernel : Nat → ItemSet} {s : Nat}

/-- Conflicts are listed state by state, and for each state terminal by terminal. -/
theorem pairwise_conflicts (hrun : (generate mode g).result = .ok a) :
    a.conflicts.Pairwise Conflict.Before := by
  obtain ⟨graph, _, hbuilt⟩ := exists_graph_of_generate hrun
  unfold ofStateGraph at hbuilt
  obtain ⟨finished, hfinished, hbuilt⟩ := exists_of_bind_eq_ok hbuilt
  cases hbuilt
  obtain ⟨hlength, hget⟩ := List.forall₂_iff_get.mp (forall₂_of_mapM_eq_ok hfinished)
  have hrows : ∀ n (hn : n < finished.length),
      finished[n].2.Pairwise Conflict.Before ∧ ∀ c ∈ finished[n].2, c.state = n := by
    intro n hn
    have hdone := hget n (hlength ▸ hn) hn
    simp only [List.get_eq_getElem, List.getElem_zipIdx, Nat.zero_add] at hdone
    have hconflicts : finished[n].2 = _ := (finishState_spec hdone).2.2.2
    rw [hconflicts]
    exact pairwise_conflicts_of_rows _ _ _ _
  refine List.pairwise_flatMap.mpr ⟨fun result hresult => ?_, ?_⟩
  · obtain ⟨n, hn, rfl⟩ := List.mem_iff_getElem.mp hresult
    exact (hrows n hn).1
  · refine List.pairwise_iff_getElem.mpr fun m n hm hn hmn c hc d hd => Or.inl ?_
    rw [(hrows m hm).2 c hc, (hrows n hn).2 d hd]
    exact hmn

namespace Faithful

variable {st : State} {c : Conflict}

/-- A state acts on the terminals on which it has candidates. -/
theorem competed_iff (hf : a.Faithful g first mode kernel) (hst : a.states[s]? = some st)
    {t : Nat} : t ∈ competedTerminals g st.items st.transitions ↔ ∃ x, Candidate g st t x := by
  simp only [mem_competedTerminals, ← hf.target?_iff hst, ← candidate_shift_iff (g := g),
    ← candidate_reduce_iff]
  constructor
  · rintro (⟨next, hnext⟩ | ⟨r, hr⟩)
    · exact ⟨_, hnext⟩
    · exact ⟨_, hr⟩
  · rintro ⟨x, hx⟩
    rcases hx.cases_lists with ⟨next, _, rfl⟩ | ⟨r, _, rfl⟩
    · exact Or.inl ⟨next, hx⟩
    · exact Or.inr ⟨r, hx⟩

/-- The table has what is chosen among the candidates. -/
theorem action?_eq_some_iff (h : g.InOrder) (hf : a.Faithful g first mode kernel)
    (hst : a.states[s]? = some st) {t : Nat} {x : Action} :
    st.action? t = some x ↔ Chosen g st t x := by
  rw [chosen_iff_choice h, ← hf.competed_iff hst, hf.action?_eq hst]
  split
  · rename_i ht
    simp [ht]
  · rename_i ht
    simp [ht]

/-- What a conflict tells about the state it is met in. -/
theorem conflict_spec (hf : a.Faithful g first mode kernel) (hc : c ∈ a.conflicts) :
    ∃ st, a.states[c.state]? = some st ∧ c.shift = st.target? (.terminal c.terminal) ∧
      c.reduces = reductionsOn g st.items c.terminal ∧ st.action? c.terminal = some c.action := by
  obtain ⟨s, st, hst, t, kind, resolution, hchoice, rfl⟩ := hf.mem_conflicts.mp hc
  refine ⟨st, hst, rfl, rfl, ?_⟩
  rw [hf.action?_eq hst, if_pos]
  by_contra hnot
  rw [hf.choice_of_not_competed hst hnot] at hchoice
  cases hchoice

/-- There is a conflict where there are two candidates. -/
theorem exists_conflict_iff (h : g.Augmented) (hfirst : first.Within g)
    (hf : a.Faithful g first mode kernel) (hst : a.states[s]? = some st) {t : Nat} :
    (∃ c ∈ a.conflicts, c.state = s ∧ c.terminal = t) ↔
      ∃ x y, Candidate g st t x ∧ Candidate g st t y ∧ x ≠ y := by
  rw [← choice_conflicts_iff (nodup_reductionsOn h (hf.fits h hfirst hst) t)]
  constructor
  · rintro ⟨c, hc, rfl, rfl⟩
    obtain ⟨s, st', hst', t, kind, resolution, hchoice, rfl⟩ := hf.mem_conflicts.mp hc
    obtain rfl := Option.some.inj (hst.symm.trans hst')
    exact ⟨kind, resolution, hchoice⟩
  · rintro ⟨kind, resolution, hchoice⟩
    exact ⟨_, hf.mem_conflicts.mpr ⟨s, st, hst, t, kind, resolution, hchoice, rfl⟩, rfl, rfl⟩

end Faithful

/-- The actions and the conflicts of an automaton, which may be that of an edited grammar.  A state
acts on the terminals on which it has candidates, does what is chosen among them, and never reduces
by the augmented rule.  There is a conflict in a state on a terminal if and only if there are two
candidates; then there is only one, which lists the candidates and the action in the table. -/
theorem actions_and_conflicts_exact {declarations : List Declaration} {whole : Grammar}
    (hwhole : Grammar.define declarations = .ok whole) (hpart : g.PartOf whole)
    (hrun : (generate mode g).result = .ok a) :
    (∀ c ∈ a.conflicts, ∃ st, a.state? c.state = some st) ∧
      ∀ s st, a.state? s = some st → ∀ t,
        ((∃ x, st.action? t = some x) ↔ ∃ x, Candidate g st t x) ∧
        (∀ x, st.action? t = some x ↔ Chosen g st t x) ∧
        st.action? t ≠ some (.reduce augmentedRule) ∧
        ((∃ c ∈ a.conflicts, c.state = s ∧ c.terminal = t) ↔
          ∃ x y, Candidate g st t x ∧ Candidate g st t y ∧ x ≠ y) ∧
        ∀ c ∈ a.conflicts, c.state = s → c.terminal = t →
          a.conflicts.filter (fun d => d.state = s ∧ d.terminal = t) = [c] ∧
          (∀ next, c.shift = some next ↔ Candidate g st t (.shift next)) ∧ c.reduces.Nodup ∧
          (∀ r, r ∈ c.reduces ↔ Candidate g st t (reduceOrAccept r)) ∧
          st.action? t = some c.action := by
  obtain ⟨h, kernel, hf⟩ :=
    faithful_of_edited (Grammar.augmented_of_define hwhole) hpart hrun
  have hfirst : (FirstTable.ofGrammar g).Within { g with start := whole.start } :=
    FirstTable.within_ofGrammar _
  have horder : g.InOrder := h.inOrder
  have hactions : ∀ {s st}, a.state? s = some st → ∀ {t x},
      st.action? t = some x ↔ Chosen g st t x := fun hst _ _ =>
    (hf.action?_eq_some_iff h.inOrder hst).trans (chosen_withStart horder _)
  refine ⟨fun c hc => ?_, fun s st hst t => ⟨?_, fun x => hactions hst, ?_, ?_, ?_⟩⟩
  · obtain ⟨st, hst, _⟩ := hf.conflict_spec hc
    exact ⟨st, hst⟩
  · simp only [hactions hst]
    constructor
    · rintro ⟨x, hx⟩
      exact hx.exists_candidate
    · exact fun hcandidate => ⟨_, chosen_choice horder hcandidate⟩
  · rw [Ne, hactions hst]
    exact fun hchosen => choice_ne_reduce_augmentedRule g st t (hchosen.eq_choice horder)
  · simp only [hf.exists_conflict_iff h hfirst hst, candidate_withStart]
  · rintro c hc rfl rfl
    obtain ⟨st', hst', hshift, hreduces, haction⟩ := hf.conflict_spec hc
    obtain rfl := Option.some.inj (hst.symm.trans hst')
    refine ⟨filter_eq_singleton_of_before (pairwise_conflicts hrun) hc, fun next => ?_, ?_,
      fun r => ?_, haction⟩
    · rw [hshift, candidate_shift_iff]
    · rw [hreduces]
      exact nodup_reductionsOn h (hf.fits h hfirst hst) _
    · rw [hreduces, ← candidate_reduce_iff, candidate_withStart]

set_option maxRecDepth 100000 in
/-- In a sum without precedences a reduction competes with a shift. -/
theorem actions_and_conflicts_exact_ambiguousSum :
    ∃ g a, Grammar.define ambiguousSum = .ok g ∧ g.PartOf g ∧
      (generate .pgm g).result = .ok a ∧ a.conflicts ≠ [] ∧
      (∀ c ∈ a.conflicts, ∃ st, a.state? c.state = some st) ∧
      ∀ s st, a.state? s = some st → ∀ t,
        ((∃ x, st.action? t = some x) ↔ ∃ x, Candidate g st t x) ∧
        (∀ x, st.action? t = some x ↔ Chosen g st t x) ∧
        st.action? t ≠ some (.reduce augmentedRule) ∧
        ((∃ c ∈ a.conflicts, c.state = s ∧ c.terminal = t) ↔
          ∃ x y, Candidate g st t x ∧ Candidate g st t y ∧ x ≠ y) ∧
        ∀ c ∈ a.conflicts, c.state = s → c.terminal = t →
          a.conflicts.filter (fun d => d.state = s ∧ d.terminal = t) = [c] ∧
          (∀ next, c.shift = some next ↔ Candidate g st t (.shift next)) ∧ c.reduces.Nodup ∧
          (∀ r, r ∈ c.reduces ↔ Candidate g st t (reduceOrAccept r)) ∧
          st.action? t = some c.action := by
  have hsome : (ofDeclarations .pgm ambiguousSum).any
      (fun built => decide (built.2.conflicts ≠ [])) = true := by
    decide +kernel
  obtain ⟨g, a, hg, ha, hp⟩ := exists_of_ofDeclarations hsome
  exact ⟨g, a, hg, .refl g, ha, of_decide_eq_true hp,
    actions_and_conflicts_exact hg (.refl g) ha⟩

end Automaton
end ParserGen
