import ParserGen.Proofs.Automaton.Candidates
import ParserGen.Samples.Grammars

/-!
# Why a shift is made against reductions

The reductions that a shift competes with are looked at in the order of their declaration.  The
first one that cannot be compared with the shift, or does not fare like those before it, settles the
conflict in favour of the shift and is the reason that is reported; those after it do not matter.
If there are obstacles of both kinds, it thus depends on the order of the rules which of them is
reported, and a rule without a precedence may go unnoticed.

Main results:

- Theorem `agree_error_iff`: the first obstacle is what counts.
- Theorem `pairwise_reductionsOn`: reductions are listed in the order of declaration.
- Theorem `Automaton.resolution_by_first_obstacle`: how conflicts with a shift are reported.
- Theorem `Automaton.missing_precedence_unnoticed`: a missing precedence need not be reported.
-/

namespace ParserGen

open ItemSet

variable {g : Grammar} {t r : Nat} {reduces : List Nat}

/-! ## The first obstacle -/

namespace Preference

/-- What is reported about a reduction that does not fare like those before it. -/
def objection : Option Preference → ConflictReason
  | none => .missingPrecedence
  | some _ => .inconsistentShiftResolution

variable {α : Type} {f : α → Option Preference} {l : List α} {q : Preference} {e : ConflictReason}

/-- Preferences that should be `q` fail to agree at the first one that is not. -/
theorem agree_some_error_iff :
    agree (some q) (l.map f) = .error e ↔
      ∃ pre a post, l = pre ++ a :: post ∧ (∀ b ∈ pre, f b = some q) ∧ f a ≠ some q ∧
        e = objection (f a) := by
  induction l with
  | nil => simp [agree]
  | cons b l ih =>
    have hhead : f b ≠ some q → ((∃ pre a post, b :: l = pre ++ a :: post ∧
        (∀ b ∈ pre, f b = some q) ∧ f a ≠ some q ∧ e = objection (f a)) ↔ e = objection (f b)) := by
      intro hb
      constructor
      · rintro ⟨_ | ⟨c, pre⟩, a, post, hl, hpre, _, he⟩
        · obtain ⟨rfl, _⟩ := List.cons.inj hl
          exact he
        · obtain ⟨rfl, _⟩ := List.cons.inj hl
          exact absurd (hpre b List.mem_cons_self) hb
      · exact fun he => ⟨[], b, l, rfl, by simp, hb, he⟩
    cases hb : f b with
    | none =>
      rw [hhead (by simp [hb]), List.map_cons, hb]
      simp [agree, objection, eq_comm]
    | some p =>
      by_cases hpq : p = q
      · subst hpq
        rw [List.map_cons, hb, agree, if_pos rfl, ih]
        constructor
        · rintro ⟨pre, a, post, rfl, hpre, ha, he⟩
          exact ⟨b :: pre, a, post, rfl, List.forall_mem_cons.mpr ⟨hb, hpre⟩, ha, he⟩
        · rintro ⟨_ | ⟨c, pre⟩, a, post, hl, hpre, ha, he⟩
          · obtain ⟨rfl, _⟩ := List.cons.inj hl
            exact absurd hb ha
          · obtain ⟨rfl, rfl⟩ := List.cons.inj hl
            exact ⟨pre, a, post, rfl, (List.forall_mem_cons.mp hpre).2, ha, he⟩
      · rw [hhead (by simp [hb, hpq]), List.map_cons, hb, agree, if_neg (Ne.symm hpq)]
        simp [objection, eq_comm]

/-- Preferences fail to agree at the first one that is missing or differs from those before it. -/
theorem agree_none_error_iff :
    agree none (l.map f) = .error e ↔
      ∃ pre a post, l = pre ++ a :: post ∧ (∃ q, ∀ b ∈ pre, f b = some q) ∧
        (f a = none ∨ ∃ b ∈ pre, f b ≠ f a) ∧ e = objection (f a) := by
  cases l with
  | nil => simp [agree]
  | cons b l =>
    cases hb : f b with
    | none =>
      rw [List.map_cons, hb, agree, Except.error.injEq]
      constructor
      · rintro rfl
        exact ⟨[], b, l, rfl, ⟨.shift, by simp⟩, Or.inl hb, by rw [hb]; rfl⟩
      · rintro ⟨_ | ⟨c, pre⟩, a, post, hl, ⟨q, hpre⟩, _, rfl⟩
        · obtain ⟨rfl, _⟩ := List.cons.inj hl
          rw [hb]
          rfl
        · obtain ⟨rfl, _⟩ := List.cons.inj hl
          rw [hpre b List.mem_cons_self] at hb
          cases hb
    | some p =>
      rw [List.map_cons, hb, agree, agree_some_error_iff]
      constructor
      · rintro ⟨pre, a, post, rfl, hpre, ha, he⟩
        refine ⟨b :: pre, a, post, rfl, ⟨p, List.forall_mem_cons.mpr ⟨hb, hpre⟩⟩, Or.inr ?_, he⟩
        exact ⟨b, List.mem_cons_self, hb ▸ ha.symm⟩
      · rintro ⟨_ | ⟨c, pre⟩, a, post, hl, ⟨q, hpre⟩, ha, he⟩
        · obtain ⟨rfl, _⟩ := List.cons.inj hl
          simp [hb] at ha
        · obtain ⟨rfl, rfl⟩ := List.cons.inj hl
          have hq : some q = some p := (hpre b List.mem_cons_self).symm.trans hb
          rw [hq] at hpre
          refine ⟨pre, a, post, rfl, (List.forall_mem_cons.mp hpre).2, ?_, he⟩
          rintro hap
          rcases ha with hnone | ⟨c, hc, hne⟩
          · rw [hap] at hnone
            cases hnone
          · exact hne ((hpre c hc).trans hap.symm)

end Preference

/-- The reduction by `r` cannot be compared with the shift or does not fare like those before it,
and it is the first one of which this holds. -/
structure FirstObstacle (g : Grammar) (t : Nat) (reduces : List Nat) (r : Nat) : Prop where
  mem : r ∈ reduces
  agreed : ∃ p, ∀ r' ∈ reduces, r' < r → rulePreference g t r' = some p
  obstacle : rulePreference g t r = none ∨
    ∃ r' ∈ reduces, r' < r ∧ rulePreference g t r' ≠ rulePreference g t r

namespace FirstObstacle

variable {r' : Nat}

/-- If there is an obstacle, the preferences do not agree. -/
theorem not_agreed (h : FirstObstacle g t reduces r) (p : Preference) : ¬ Agreed g t reduces p := by
  intro hp
  rcases h.obstacle with hnone | ⟨r', hr', _, hne⟩
  · rw [hp r h.mem] at hnone
    cases hnone
  · exact hne ((hp r' hr').trans (hp r h.mem).symm)

theorem not_lt (h : FirstObstacle g t reduces r) (h' : FirstObstacle g t reduces r') :
    ¬ r < r' := by
  intro hlt
  obtain ⟨p, hp⟩ := h'.agreed
  have hr := hp r h.mem hlt
  rcases h.obstacle with hnone | ⟨x, hx, hxr, hne⟩
  · rw [hr] at hnone
    cases hnone
  · exact hne ((hp x hx (hxr.trans hlt)).trans hr.symm)

/-- There is only one first obstacle. -/
theorem unique (h : FirstObstacle g t reduces r) (h' : FirstObstacle g t reduces r') : r = r' :=
  Nat.le_antisymm (Nat.le_of_not_lt (h'.not_lt h)) (Nat.le_of_not_lt (h.not_lt h'))

end FirstObstacle

/-- What stands before a member of an ascending list are the smaller members. -/
theorem mem_before_iff {pre post : List Nat} (hsorted : (pre ++ r :: post).Pairwise (· < ·))
    {x : Nat} : x ∈ pre ↔ x ∈ pre ++ r :: post ∧ x < r := by
  obtain ⟨_, hpost, hacross⟩ := List.pairwise_append.mp hsorted
  constructor
  · exact fun hx => ⟨List.mem_append_left _ hx, hacross x hx r List.mem_cons_self⟩
  · rintro ⟨hx, hlt⟩
    rcases List.mem_append.mp hx with hx | hx
    · exact hx
    · rcases List.mem_cons.mp hx with rfl | hx
      · exact absurd hlt (Nat.lt_irrefl x)
      · exact absurd ((List.pairwise_cons.mp hpost).1 x hx) (Nat.lt_asymm hlt)

/-- Preferences of reductions in the order of declaration fail to agree at the first obstacle. -/
theorem agree_error_iff (hsorted : reduces.Pairwise (· < ·)) {e : ConflictReason} :
    Preference.agree none (reduces.map (rulePreference g t)) = .error e ↔
      ∃ r, FirstObstacle g t reduces r ∧ e = Preference.objection (rulePreference g t r) := by
  rw [Preference.agree_none_error_iff]
  constructor
  · rintro ⟨pre, r, post, rfl, ⟨q, hpre⟩, hobstacle, he⟩
    have hbefore := @mem_before_iff r pre post hsorted
    refine ⟨r, ⟨by simp, ⟨q, fun r' hr' hlt => hpre r' (hbefore.mpr ⟨hr', hlt⟩)⟩, ?_⟩, he⟩
    refine hobstacle.imp_right ?_
    rintro ⟨r', hr', hne⟩
    exact ⟨r', (hbefore.mp hr').1, (hbefore.mp hr').2, hne⟩
  · rintro ⟨r, ⟨hmem, ⟨q, hagreed⟩, hobstacle⟩, he⟩
    obtain ⟨pre, post, rfl⟩ := List.append_of_mem hmem
    have hbefore := @mem_before_iff r pre post hsorted
    refine ⟨pre, r, post, rfl, ⟨q, fun r' hr' => ?_⟩, hobstacle.imp_right ?_, he⟩
    · exact hagreed r' (hbefore.mp hr').1 (hbefore.mp hr').2
    · rintro ⟨r', hr', hlt, hne⟩
      exact ⟨r', hbefore.mpr ⟨hr', hlt⟩, hne⟩

/-! ## What is reported -/

namespace Preference

theorem objection_eq_missing_iff {p : Option Preference} :
    objection p = .missingPrecedence ↔ p = none := by
  cases p <;> simp [objection]

theorem objection_eq_inconsistent_iff {p : Option Preference} :
    objection p = .inconsistentShiftResolution ↔ p ≠ none := by
  cases p <;> simp [objection]

/-- Having more than one reduction is not an objection to one of them. -/
theorem objection_ne_multiple (p : Option Preference) : objection p ≠ .multipleReductions := by
  cases p <;> simp [objection]

end Preference

/-- What is reported about a shift and some reductions, in the order of declaration. -/
theorem resolveShiftReduce_cases (next : Nat) (hne : reduces ≠ [])
    (hsorted : reduces.Pairwise (· < ·)) :
    (∃ r, FirstObstacle g t reduces r ∧ (resolveShiftReduce g t next reduces).2 =
        .arbitrary (Preference.objection (rulePreference g t r))) ∨
      (Agreed g t reduces .reduce ∧ 1 < reduces.length ∧
        (resolveShiftReduce g t next reduces).2 = .arbitrary .multipleReductions) ∨
      ∃ p, Agreed g t reduces p ∧ (p = .reduce → reduces.length = 1) ∧
        (resolveShiftReduce g t next reduces).2 = .precedence := by
  by_cases hagreed : ∃ p, Agreed g t reduces p
  · obtain ⟨p, hp⟩ := hagreed
    rw [resolveShiftReduce_of_agreed next hne hp]
    cases p with
    | shift => exact Or.inr (Or.inr ⟨_, hp, by simp, rfl⟩)
    | neither => exact Or.inr (Or.inr ⟨_, hp, by simp, rfl⟩)
    | reduce =>
      rcases reduces with _ | ⟨r, _ | ⟨r', rest⟩⟩
      · exact absurd rfl hne
      · exact Or.inr (Or.inr ⟨_, hp, by simp, rfl⟩)
      · exact Or.inr (Or.inl ⟨hp, by simp, rfl⟩)
  · have hnot : ∀ p, ¬ Agreed g t reduces p := fun p hp => hagreed ⟨p, hp⟩
    obtain ⟨reason, hreason⟩ := exists_error_of_not_agreed hne hnot
    obtain ⟨r, hr, rfl⟩ := (agree_error_iff hsorted).mp hreason
    exact Or.inl ⟨r, hr, by rw [resolveShiftReduce_of_error next hreason]⟩

section Report

variable {next : Nat}

/-- An obstacle is reported if and only if it is the first one. -/
theorem resolution_eq_arbitrary_iff (hne : reduces ≠ []) (hsorted : reduces.Pairwise (· < ·))
    {e : ConflictReason} (he : e ≠ .multipleReductions) :
    (resolveShiftReduce g t next reduces).2 = .arbitrary e ↔
      ∃ r, FirstObstacle g t reduces r ∧ Preference.objection (rulePreference g t r) = e := by
  rcases resolveShiftReduce_cases next hne hsorted with
    ⟨r, hr, hreport⟩ | ⟨hagreed, _, hreport⟩ | ⟨p, hagreed, _, hreport⟩
  · rw [hreport, Resolution.arbitrary.injEq]
    constructor
    · exact fun hreason => ⟨r, hr, hreason⟩
    · rintro ⟨r', hr', hreason⟩
      rwa [hr.unique hr']
  · rw [hreport, Resolution.arbitrary.injEq]
    exact iff_of_false he.symm fun ⟨_, hr, _⟩ => hr.not_agreed _ hagreed
  · rw [hreport]
    exact iff_of_false (by simp) fun ⟨_, hr, _⟩ => hr.not_agreed _ hagreed

theorem resolution_eq_multiple_iff (hne : reduces ≠ []) (hsorted : reduces.Pairwise (· < ·)) :
    (resolveShiftReduce g t next reduces).2 = .arbitrary .multipleReductions ↔
      Agreed g t reduces .reduce ∧ 1 < reduces.length := by
  rcases resolveShiftReduce_cases next hne hsorted with
    ⟨r, hr, hreport⟩ | ⟨hagreed, hlength, hreport⟩ | ⟨p, hagreed, hone, hreport⟩
  · rw [hreport, Resolution.arbitrary.injEq]
    exact iff_of_false (Preference.objection_ne_multiple _) fun h => hr.not_agreed _ h.1
  · exact iff_of_true hreport ⟨hagreed, hlength⟩
  · rw [hreport]
    refine iff_of_false (by simp) ?_
    rintro ⟨hreduce, hlength⟩
    obtain ⟨r, hr⟩ := List.exists_mem_of_ne_nil _ hne
    have hp : p = .reduce := Option.some.inj ((hagreed r hr).symm.trans (hreduce r hr))
    rw [hone hp] at hlength
    exact absurd hlength (Nat.lt_irrefl 1)

theorem resolution_eq_precedence_iff (hne : reduces ≠ []) (hsorted : reduces.Pairwise (· < ·)) :
    (resolveShiftReduce g t next reduces).2 = .precedence ↔
      ∃ p, Agreed g t reduces p ∧ (p = .reduce → reduces.length = 1) := by
  rcases resolveShiftReduce_cases next hne hsorted with
    ⟨r, hr, hreport⟩ | ⟨hagreed, hlength, hreport⟩ | ⟨p, hagreed, hone, hreport⟩
  · rw [hreport]
    exact iff_of_false (by simp) fun ⟨_, hp, _⟩ => hr.not_agreed _ hp
  · rw [hreport]
    refine iff_of_false (by simp) ?_
    rintro ⟨p, hp, hone⟩
    obtain ⟨r, hr⟩ := List.exists_mem_of_ne_nil _ hne
    have hreduce : p = .reduce := Option.some.inj ((hp r hr).symm.trans (hagreed r hr))
    rw [hone hreduce] at hlength
    exact absurd hlength (Nat.lt_irrefl 1)
  · exact iff_of_true hreport ⟨p, hagreed, hone⟩

/-- If the comparisons that can be made agree, a missing precedence does not go unnoticed. -/
theorem resolution_eq_missing_iff_of_agree (hne : reduces ≠ []) (hsorted : reduces.Pairwise (· < ·))
    (hagree : ∀ r ∈ reduces, ∀ r' ∈ reduces, rulePreference g t r ≠ none →
      rulePreference g t r' ≠ none → rulePreference g t r = rulePreference g t r') :
    (resolveShiftReduce g t next reduces).2 = .arbitrary .missingPrecedence ↔
      ∃ r ∈ reduces, rulePreference g t r = none := by
  constructor
  · intro hreport
    obtain ⟨r, hr, hreason⟩ := (resolution_eq_arbitrary_iff hne hsorted (by simp)).mp hreport
    exact ⟨r, hr.mem, Preference.objection_eq_missing_iff.mp hreason⟩
  · rintro ⟨r, hr, hnone⟩
    rcases resolveShiftReduce_cases next hne hsorted with
      ⟨r', hr', hreport⟩ | ⟨hagreed, _, _⟩ | ⟨p, hagreed, _, _⟩
    · rw [hreport, Resolution.arbitrary.injEq, Preference.objection_eq_missing_iff]
      by_contra hsome
      obtain ⟨x, hx, hlt, hne⟩ := hr'.obstacle.resolve_left hsome
      obtain ⟨p, hp⟩ := hr'.agreed
      exact hne (hagree x hx r' hr'.mem (by rw [hp x hx hlt]; exact Option.some_ne_none p) hsome)
    · rw [hagreed r hr] at hnone
      cases hnone
    · rw [hagreed r hr] at hnone
      cases hnone

end Report

/-! ## The order of reductions -/

/-- Items in order belong to rules in order. -/
theorem Item.rule_le_of_lt {i j : Item} (h : compare i j = .lt) : i.rule ≤ j.rule := by
  rw [Item.compare_eq, Ordering.then_eq_lt, Nat.compare_eq_lt, Nat.compare_eq_eq] at h
  omega

/-- Reductions are listed in the order of declaration. -/
theorem pairwise_reductionsOn (h : g.Augmented) {items : ItemSet} (hfits : ∀ i ∈ items, i.Fits g)
    (t : Nat) : (reductionsOn g items t).Pairwise (· < ·) := by
  have hle : (reductionsOn g items t).Pairwise (· ≤ ·) := by
    rw [reductionsOn, List.pairwise_map]
    exact List.Pairwise.filter _ (Std.ExtTreeMap.ordered_keys_toList.imp Item.rule_le_of_lt)
  exact (hle.and (nodup_reductionsOn h hfits t)).imp fun hboth => lt_of_le_of_ne hboth.1 hboth.2

namespace Automaton

variable {mode : MergeMode} {a : Automaton} {whole : Grammar}

/-- What a conflict of a shift tells about the reductions that compete with it. -/
theorem Faithful.shift_conflict_spec {first : FirstTable} {kernel : Nat → ItemSet} (h : g.Augmented)
    (hfirst : first.Within g) (hf : a.Faithful g first mode kernel) {c : Conflict}
    (hc : c ∈ a.conflicts) (hshift : c.shift ≠ none) :
    c.reduces ≠ [] ∧ c.reduces.Pairwise (· < ·) ∧
      ∃ next, c.resolution = (resolveShiftReduce g c.terminal next c.reduces).2 := by
  obtain ⟨s, st, hst, t, kind, resolution, hchoice, rfl⟩ := hf.mem_conflicts.mp hc
  obtain ⟨next, hnext⟩ := Option.ne_none_iff_exists'.mp hshift
  have hne : reductionsOn g st.items t ≠ [] := by
    intro hempty
    rw [State.choice, hempty, resolve_nil] at hchoice
    cases hchoice
  refine ⟨hne, pairwise_reductionsOn h (hf.fits h hfirst hst) t, next, ?_⟩
  dsimp only at hnext
  rw [State.choice, hnext, resolve_some g t next hne] at hchoice
  cases hchoice
  rfl

/-- How the conflicts of shifts are reported in an automaton, which may be that of an edited
grammar.  The reductions are listed in the order of declaration.  A missing precedence is reported
if the first obstacle among them is one, and an inconsistency if it is not; a missing precedence is
thus reported whenever there is one, if the comparisons that can be made agree.  If there is no
obstacle, what is reported tells whether more than one reduction is preferred to the shift. -/
theorem resolution_by_first_obstacle {declarations : List Declaration}
    (hwhole : Grammar.define declarations = .ok whole) (hpart : g.PartOf whole)
    (hrun : (generate mode g).result = .ok a) :
    ∀ c ∈ a.conflicts, c.shift ≠ none →
      c.reduces.Pairwise (· < ·) ∧
      (c.resolution = .arbitrary .missingPrecedence ↔
        ∃ r, FirstObstacle g c.terminal c.reduces r ∧
          (g.precedenceOf c.terminal = none ∨ g.precedenceOfRule r = none)) ∧
      (c.resolution = .arbitrary .inconsistentShiftResolution ↔
        ∃ r, FirstObstacle g c.terminal c.reduces r ∧
          g.precedenceOf c.terminal ≠ none ∧ g.precedenceOfRule r ≠ none) ∧
      (c.resolution = .arbitrary .multipleReductions ↔
        Agreed g c.terminal c.reduces .reduce ∧ 1 < c.reduces.length) ∧
      (c.resolution = .precedence ↔
        ∃ p, Agreed g c.terminal c.reduces p ∧ (p = .reduce → c.reduces.length = 1)) ∧
      ((∀ r ∈ c.reduces, ∀ r' ∈ c.reduces, rulePreference g c.terminal r ≠ none →
          rulePreference g c.terminal r' ≠ none →
          rulePreference g c.terminal r = rulePreference g c.terminal r') →
        (c.resolution = .arbitrary .missingPrecedence ↔
          g.precedenceOf c.terminal = none ∨ ∃ r ∈ c.reduces, g.precedenceOfRule r = none)) := by
  intro c hc hshift
  obtain ⟨h, kernel, hf⟩ :=
    faithful_of_edited (Grammar.augmented_of_define hwhole) hpart hrun
  obtain ⟨hne, hsorted, next, hreport⟩ :=
    hf.shift_conflict_spec h (FirstTable.within_ofGrammar _) hc hshift
  replace hreport : c.resolution = (resolveShiftReduce g c.terminal next c.reduces).2 := hreport
  rw [hreport]
  have hmissing : ConflictReason.missingPrecedence ≠ .multipleReductions := by simp
  have hinconsistent : ConflictReason.inconsistentShiftResolution ≠ .multipleReductions := by simp
  refine ⟨hsorted, ?_, ?_, resolution_eq_multiple_iff hne hsorted,
    resolution_eq_precedence_iff hne hsorted, fun hagree => ?_⟩
  · simp only [resolution_eq_arbitrary_iff hne hsorted hmissing,
      Preference.objection_eq_missing_iff, rulePreference_eq_none_iff]
  · simp only [resolution_eq_arbitrary_iff hne hsorted hinconsistent,
      Preference.objection_eq_inconsistent_iff, Ne, rulePreference_eq_none_iff, not_or]
  · rw [resolution_eq_missing_iff_of_agree hne hsorted hagree]
    simp only [rulePreference_eq_none_iff]
    obtain ⟨r, hr⟩ := List.exists_mem_of_ne_nil _ hne
    constructor
    · rintro ⟨r', hr', hterminal | hrule⟩
      · exact Or.inl hterminal
      · exact Or.inr ⟨r', hr', hrule⟩
    · rintro (hterminal | ⟨r', hr', hrule⟩)
      · exact ⟨r, hr, Or.inl hterminal⟩
      · exact ⟨r', hr', Or.inr hrule⟩

/-- After an integer three rules may be reduced by, which compare differently with the operator; the
last one has no precedence. -/
def threeReductions : Sketch where
  terminals := [("OP", some ⟨1, .left⟩), ("INT", none)]
  nonterminals := ["S", "A", "B", "C"]
  start := none
  rules :=
    Samples.alternatives "S"
        [["A", "OP"], ["B", "OP", "OP"], ["C", "OP", "OP", "OP"], ["INT", "OP", "INT"]]
      ++ [⟨"A", ["INT"], some ⟨0, .left⟩⟩, ⟨"B", ["INT"], some ⟨2, .left⟩⟩, ⟨"C", ["INT"], none⟩]

set_option maxRecDepth 100000 in
theorem exists_conflict_threeReductions :
    ∃ g a c, Grammar.define threeReductions.declarations = .ok g ∧
      (generate .pgm g).result = .ok a ∧ c ∈ a.conflicts ∧ c.shift = some 9 ∧
      c.reduces = [5, 6, 7] ∧ g.precedenceOfRule 7 = none ∧
      c.resolution = .arbitrary .inconsistentShiftResolution ∧
      (resolveShiftReduce g c.terminal 9 [7, 5, 6]).2 = .arbitrary .missingPrecedence := by
  have hsome : (ofDeclarations .pgm threeReductions.declarations).any (fun built =>
      built.2.conflicts.any fun c => decide (c.shift = some 9 ∧ c.reduces = [5, 6, 7] ∧
        built.1.precedenceOfRule 7 = none ∧
        c.resolution = .arbitrary .inconsistentShiftResolution ∧
        (resolveShiftReduce built.1 c.terminal 9 [7, 5, 6]).2 = .arbitrary .missingPrecedence)) =
      true := by
    decide +kernel
  obtain ⟨g, a, hg, ha, hp⟩ := exists_of_ofDeclarations hsome
  obtain ⟨c, hc, hp⟩ := List.any_eq_true.mp hp
  exact ⟨g, a, c, hg, ha, hc, of_decide_eq_true hp⟩

/-- A missing precedence may go unnoticed, and would be reported if the reductions came in another
order. -/
theorem missing_precedence_unnoticed :
    ∃ g a c next reduces, Grammar.define threeReductions.declarations = .ok g ∧
      (generate .pgm g).result = .ok a ∧ c ∈ a.conflicts ∧ c.shift = some next ∧
      (∃ r ∈ c.reduces, g.precedenceOfRule r = none) ∧
      c.resolution ≠ .arbitrary .missingPrecedence ∧ reduces.Perm c.reduces ∧
      (resolveShiftReduce g c.terminal next reduces).2 ≠ c.resolution := by
  obtain ⟨g, a, c, hg, ha, hc, hshift, hreduces, hrule, hreport, hother⟩ :=
    exists_conflict_threeReductions
  refine ⟨g, a, c, 9, [7, 5, 6], hg, ha, hc, hshift, ⟨7, ?_, hrule⟩, ?_, ?_, ?_⟩
  · simp [hreduces]
  · simp [hreport]
  · rw [hreduces]
    decide
  · simp [hreport, hother]

theorem resolution_by_first_obstacle_threeReductions :
    ∃ g a c, Grammar.define threeReductions.declarations = .ok g ∧ g.PartOf g ∧
      (generate .pgm g).result = .ok a ∧ c ∈ a.conflicts ∧ c.shift ≠ none ∧
      c.reduces.Pairwise (· < ·) ∧
      (c.resolution = .arbitrary .missingPrecedence ↔
        ∃ r, FirstObstacle g c.terminal c.reduces r ∧
          (g.precedenceOf c.terminal = none ∨ g.precedenceOfRule r = none)) ∧
      (c.resolution = .arbitrary .inconsistentShiftResolution ↔
        ∃ r, FirstObstacle g c.terminal c.reduces r ∧
          g.precedenceOf c.terminal ≠ none ∧ g.precedenceOfRule r ≠ none) ∧
      (c.resolution = .arbitrary .multipleReductions ↔
        Agreed g c.terminal c.reduces .reduce ∧ 1 < c.reduces.length) ∧
      (c.resolution = .precedence ↔
        ∃ p, Agreed g c.terminal c.reduces p ∧ (p = .reduce → c.reduces.length = 1)) ∧
      ((∀ r ∈ c.reduces, ∀ r' ∈ c.reduces, rulePreference g c.terminal r ≠ none →
          rulePreference g c.terminal r' ≠ none →
          rulePreference g c.terminal r = rulePreference g c.terminal r') →
        (c.resolution = .arbitrary .missingPrecedence ↔
          g.precedenceOf c.terminal = none ∨ ∃ r ∈ c.reduces, g.precedenceOfRule r = none)) := by
  obtain ⟨g, a, c, hg, ha, hc, hshift, _⟩ := exists_conflict_threeReductions
  have hsome : c.shift ≠ none := by simp [hshift]
  exact ⟨g, a, c, hg, .refl g, ha, hc, hsome,
    resolution_by_first_obstacle hg (.refl g) ha c hc hsome⟩

end Automaton
end ParserGen
