import Mathlib.Data.Finset.Prod
import Mathlib.Data.Finset.Option
import ParserGen.Grammar.FirstSets
import ParserGen.Proofs.Grammar.RuleTable
import ParserGen.Proofs.Saturation

/-!
# The FIRST table is a fixed point

The sweeps over the rules end with a table that every rule leaves as it is.  Automata use the table
only through its closure under the rules, and through the bound on the terminals it mentions.

Main results:

- Theorem `FirstTable.within_ofGrammar`: FIRST sets hold terminals of right-hand sides only.
- Theorem `FirstTable.closed_ofGrammar`: if the left-hand sides of all rules are known, a rule with
  a nullable right-hand side has a nullable left-hand side, and what can begin the right-hand side
  can begin the left-hand side.
-/

namespace ParserGen

/-- The terminals on right-hand sides, with repetitions. -/
def Grammar.rightTerminals (g : Grammar) : List Nat :=
  g.ruleList.flatMap fun r => r.right.filterMap Symbol.terminal?

/-- A terminal on some right-hand side is listed. -/
theorem Grammar.mem_rightTerminals {g : Grammar} {r : Rule} {t : Nat} (hr : r ∈ g.ruleList)
    (ht : .terminal t ∈ r.right) : t ∈ g.rightTerminals :=
  List.mem_flatMap.mpr ⟨r, hr, List.mem_filterMap.mpr ⟨_, ht, rfl⟩⟩

/-- There are no more terminals on right-hand sides than there are symbols on them. -/
theorem Grammar.length_rightTerminals_le (g : Grammar) :
    g.rightTerminals.length ≤ g.symbolCount := by
  unfold rightTerminals symbolCount
  induction g.ruleList with
  | nil => simp
  | cons r rules ih =>
    have := List.length_filterMap_le Symbol.terminal? r.right
    simp only [List.flatMap_cons, List.length_append]
    omega

namespace FirstTable

/-! ## Strings of symbols -/

@[simp]
theorem allNullable_nil (table : FirstTable) : table.allNullable [] = true := rfl

@[simp]
theorem allNullable_terminal (table : FirstTable) (t : Nat) (rest : List Symbol) :
    table.allNullable (.terminal t :: rest) = false := rfl

@[simp]
theorem allNullable_nonterminal (table : FirstTable) (n : Nat) (rest : List Symbol) :
    table.allNullable (.nonterminal n :: rest) =
      (table.isNullable n && table.allNullable rest) := rfl

/-- What follows a nonterminal comes first only if the nonterminal can vanish. -/
theorem mem_firstOfString_nonterminal {table : FirstTable} {n t : Nat} {rest : List Symbol} :
    t ∈ table.firstOfString (.nonterminal n :: rest) ↔
      t ∈ table.firstOf n ∨ table.isNullable n = true ∧ t ∈ table.firstOfString rest := by
  simp only [firstOfString]
  split <;> simp_all

@[simp]
theorem mem_firstWith_nil {table : FirstTable} {lookaheads : IdSet} {t : Nat} :
    t ∈ table.firstWith [] lookaheads ↔ t ∈ lookaheads := by
  simp [mem_firstWith]

@[simp]
theorem mem_firstWith_terminal {table : FirstTable} {rest : List Symbol} {lookaheads : IdSet}
    {a t : Nat} : t ∈ table.firstWith (.terminal a :: rest) lookaheads ↔ t = a := by
  simp [mem_firstWith]

/-! ## What one rule adds -/

/-- Only the entry of the left-hand side is changed by a rule. -/
theorem getElem?_absorb {table : FirstTable} {r : Rule} {n : Nat} :
    (table.absorb r)[n]? =
      if r.left = n then
        table[n]?.map fun entry =>
          { nullable := entry.nullable || table.allNullable r.right
            first := entry.first ∪ table.firstOfString r.right }
      else table[n]? := by
  unfold absorb
  split
  · rename_i hnone
    split
    · rename_i hn
      simp [← hn, hnone]
    · rfl
  · rename_i entry hentry
    simp only [Std.ExtTreeMap.getElem?_insert, Nat.compare_eq_eq]
    split
    · rename_i hn
      simp [← hn, hentry]
    · rfl

theorem mem_iff_isSome {table : FirstTable} {n : Nat} : n ∈ table ↔ table[n]?.isSome = true :=
  Std.ExtTreeMap.isSome_getElem?_iff_mem.symm

/-- No rule makes a nonterminal known to the table. -/
theorem mem_absorb {table : FirstTable} {r : Rule} {n : Nat} : n ∈ table.absorb r ↔ n ∈ table := by
  simp only [mem_iff_isSome, getElem?_absorb]
  split <;> simp

/-- A rule makes its left-hand side nullable if its right-hand side can vanish. -/
theorem isNullable_absorb {table : FirstTable} {r : Rule} {n : Nat} :
    (table.absorb r).isNullable n = true ↔
      table.isNullable n = true ∨ n = r.left ∧ n ∈ table ∧ table.allNullable r.right = true := by
  simp only [isNullable, mem_iff_isSome, getElem?_absorb]
  cases htable : table[n]? with
  | none => split <;> simp
  | some entry =>
    by_cases hn : r.left = n
    · simp [hn]
    · have : n ≠ r.left := Ne.symm hn
      simp [hn, this]

/-- A rule adds what can begin its right-hand side to what can begin its left-hand side. -/
theorem mem_firstOf_absorb {table : FirstTable} {r : Rule} {n t : Nat} :
    t ∈ (table.absorb r).firstOf n ↔
      t ∈ table.firstOf n ∨ n = r.left ∧ n ∈ table ∧ t ∈ table.firstOfString r.right := by
  simp only [firstOf, mem_iff_isSome, getElem?_absorb]
  cases htable : table[n]? with
  | none => split <;> simp
  | some entry =>
    by_cases hn : r.left = n
    · simp [hn]
    · have : n ≠ r.left := Ne.symm hn
      simp [hn, this]

/-- Tables that say the same about the same nonterminals are equal. -/
theorem ext_entries {table other : FirstTable} (members : ∀ n, n ∈ table ↔ n ∈ other)
    (nullable : ∀ n, table.isNullable n = true ↔ other.isNullable n = true)
    (first : ∀ n t, t ∈ table.firstOf n ↔ t ∈ other.firstOf n) : table = other := by
  refine Std.ExtTreeMap.ext_getElem? fun n => ?_
  have hm := members n
  have hn := nullable n
  have hf := first n
  simp only [mem_iff_isSome, isNullable, firstOf] at hm hn hf
  cases ht : table[n]? with
  | none => cases ho : other[n]? <;> simp_all
  | some entry =>
    cases ho : other[n]? with
    | none => simp_all
    | some entry' =>
      have hfirst : entry.first = entry'.first := IdSet.ext (by simpa [ht, ho] using hf)
      have hnullable : entry.nullable = entry'.nullable :=
        Bool.eq_iff_iff.mpr (by simpa [ht, ho] using hn)
      cases entry
      cases entry'
      simp_all

/-! ## Tables grow -/

/-- `other` knows the same nonterminals and says at least as much about them. -/
structure Below (table other : FirstTable) : Prop where
  members : ∀ n, n ∈ table ↔ n ∈ other
  nullable : ∀ n, table.isNullable n = true → other.isNullable n = true
  first : ∀ n t, t ∈ table.firstOf n → t ∈ other.firstOf n

theorem Below.refl (table : FirstTable) : Below table table :=
  ⟨fun _ => Iff.rfl, fun _ h => h, fun _ _ h => h⟩

theorem Below.trans {table other third : FirstTable} (h : Below table other)
    (h' : Below other third) : Below table third where
  members n := (h.members n).trans (h'.members n)
  nullable n hn := h'.nullable n (h.nullable n hn)
  first n t ht := h'.first n t (h.first n t ht)

/-- Tables that say no less than each other are equal. -/
theorem Below.antisymm {table other : FirstTable} (h : Below table other)
    (h' : Below other table) : table = other :=
  ext_entries h.members (fun n => ⟨h.nullable n, h'.nullable n⟩)
    fun n t => ⟨h.first n t, h'.first n t⟩

/-- A rule only adds to what a table says. -/
theorem below_absorb (table : FirstTable) (r : Rule) : Below table (table.absorb r) where
  members _ := mem_absorb.symm
  nullable _ h := isNullable_absorb.mpr (Or.inl h)
  first _ _ h := mem_firstOf_absorb.mpr (Or.inl h)

/-- Any number of rules only add to what a table says. -/
theorem below_foldl_absorb (rules : List Rule) (table : FirstTable) :
    Below table (rules.foldl absorb table) := by
  induction rules generalizing table with
  | nil => exact Below.refl table
  | cons r rules ih => exact (below_absorb table r).trans (ih (table.absorb r))

/-- A rule says something new exactly if it changes the table. -/
theorem isNews_iff {table : FirstTable} {r : Rule} :
    table.isNews r = true ↔ table.absorb r ≠ table := by
  unfold isNews
  cases hentry : table[r.left]? with
  | none =>
    have hsame : table.absorb r = table := by
      rw [absorb, hentry]
    simp [hsame]
  | some entry =>
    -- A table changes if and only if the entry that the rule is about does.
    have hsame : table.absorb r = table ↔
        FirstEntry.mk (entry.nullable || table.allNullable r.right)
          (entry.first ∪ table.firstOfString r.right) = entry := by
      constructor
      · intro h
        have hget : (table.absorb r)[r.left]? = some entry := by rw [h, hentry]
        simpa [getElem?_absorb, hentry] using hget
      · intro h
        refine Std.ExtTreeMap.ext_getElem? fun n => ?_
        rw [getElem?_absorb]
        split
        · rename_i hn
          rw [← hn, hentry, Option.map_some, h]
        · rfl
    rw [ne_eq, hsame, Bool.or_eq_true, IdSet.growsBy_iff]
    cases entry
    simp only [FirstEntry.mk.injEq, Bool.and_eq_true, Bool.not_eq_true']
    grind

/-- The flag of a sweep is set exactly if the sweep changes the table. -/
theorem reportsChanges_sweep (g : Grammar) : ReportsChanges (sweep g) :=
  reportsChanges_roundOver Below Below.refl Below.trans Below.antisymm below_absorb
    (fun _ _ => isNews_iff) g.ruleList

/-- A sweep lets the rules add what they say one after the other. -/
theorem fst_sweep (g : Grammar) (table : FirstTable) :
    (table.sweep g).1 = g.ruleList.foldl absorb table :=
  fst_roundOver ..

/-- If a sweep changes nothing, no rule of it does. -/
theorem absorb_eq_of_foldl_below {rules : List Rule} {table : FirstTable}
    (h : Below (rules.foldl absorb table) table) : ∀ r ∈ rules, table.absorb r = table := by
  induction rules with
  | nil =>
    intro r hr
    cases hr
  | cons r rules ih =>
    have hfirst : table.absorb r = table := by
      have hrest := below_foldl_absorb rules (table.absorb r)
      exact (below_absorb table r).antisymm (hrest.trans h) |>.symm
    intro r' hr'
    rcases List.mem_cons.mp hr' with rfl | hr'
    · exact hfirst
    · rw [List.foldl_cons, hfirst] at h
      exact ih h r' hr'

/-! ## The terminals and nonterminals of a table -/

/-- A table of a grammar: it knows the nonterminals of the grammar, and its FIRST sets hold
terminals of right-hand sides. -/
structure Within (g : Grammar) (table : FirstTable) : Prop where
  members : ∀ n, n ∈ table ↔ n ∈ g.nonterminals
  first : ∀ n t, t ∈ table.firstOf n → t ∈ g.rightTerminals

/-- A terminal that begins a string stands in the string or on some right-hand side. -/
theorem Within.mem_firstOfString {g : Grammar} {table : FirstTable} (h : table.Within g)
    {string : List Symbol} {t : Nat} (ht : t ∈ table.firstOfString string) :
    t ∈ g.rightTerminals ∨ .terminal t ∈ string := by
  induction string with
  | nil => simp at ht
  | cons x rest ih =>
    cases x with
    | terminal a =>
      rw [firstOfString_terminal, IdSet.mem_singleton] at ht
      simp [ht]
    | nonterminal n =>
      rcases mem_firstOfString_nonterminal.mp ht with hn | ⟨_, hrest⟩
      · exact Or.inl (h.first n t hn)
      · rcases ih hrest with hright | hmem
        · exact Or.inl hright
        · exact Or.inr (List.mem_cons_of_mem _ hmem)

/-- A rule adds only terminals of right-hand sides. -/
theorem Within.absorb {g : Grammar} {table : FirstTable} (h : table.Within g) {r : Rule}
    (hr : r ∈ g.ruleList) : (table.absorb r).Within g where
  members n := mem_absorb.trans (h.members n)
  first n t ht := by
    rcases mem_firstOf_absorb.mp ht with hold | ⟨_, _, hnew⟩
    · exact h.first n t hold
    · rcases h.mem_firstOfString hnew with hright | hmem
      · exact hright
      · exact Grammar.mem_rightTerminals hr hmem

/-- What every rule of a grammar keeps, a sweep keeps. -/
theorem sweep_induction {g : Grammar} {motive : FirstTable → Prop}
    (keep : ∀ r ∈ g.ruleList, ∀ table, motive table → motive (table.absorb r)) {table : FirstTable}
    (h : motive table) : motive (table.sweep g).1 := by
  rw [fst_sweep]
  exact List.foldlRecOn g.ruleList absorb h fun _ htable r hr => keep r hr _ htable

theorem Within.sweep {g : Grammar} {table : FirstTable} (h : table.Within g) :
    (table.sweep g).1.Within g :=
  sweep_induction (motive := Within g) (fun _ hr _ htable => htable.absorb hr) h

/-- Nonterminals that are entered into a table are entered with nothing known about them. -/
theorem getElem?_foldl_insert {names : List Nat} {table : FirstTable} {n : Nat} :
    (names.foldl (fun table n => table.insert n ⟨false, ∅⟩) table)[n]? =
      if n ∈ names then some ⟨false, ∅⟩ else table[n]? := by
  induction names generalizing table with
  | nil => simp
  | cons m names ih =>
    simp only [List.foldl_cons, ih, List.mem_cons, Std.ExtTreeMap.getElem?_insert,
      Nat.compare_eq_eq]
    by_cases hn : n ∈ names
    · simp [hn]
    · by_cases hm : m = n
      · simp [hm]
      · have : n ≠ m := Ne.symm hm
        simp [hn, hm, this]

/-- The table in which nothing is known holds no terminals at all. -/
theorem within_initial (g : Grammar) : (initial g).Within g where
  members n := by
    simp only [mem_iff_isSome, initial, getElem?_foldl_insert, IndexMap.mem_keys]
    split <;> simp_all
  first n t ht := by
    simp only [firstOf, initial, getElem?_foldl_insert] at ht
    split at ht <;> simp at ht

/-- The FIRST table of a grammar knows its nonterminals and holds terminals of its rules. -/
theorem within_ofGrammar (g : Grammar) : (ofGrammar g).Within g :=
  iterateWhileChanged_induction (fun _ h => h.sweep) _ (within_initial g)

/-! ## The fixed point -/

/-- What a table may come to say: that a nonterminal is nullable, or that it can begin with a
terminal of some right-hand side. -/
def possibleFacts (g : Grammar) : Finset (Nat × Option Nat) :=
  g.nonterminals.keys.toFinset ×ˢ Finset.insertNone g.rightTerminals.toFinset

/-- Whether a table says that a nonterminal is nullable, or begins with a terminal. -/
def Says (table : FirstTable) : Nat × Option Nat → Prop
  | (n, none) => table.isNullable n = true
  | (n, some t) => t ∈ table.firstOf n

/-- What a table says can be looked up. -/
instance (table : FirstTable) : DecidablePred table.Says := fun
  | (n, none) => inferInstanceAs (Decidable (table.isNullable n = true))
  | (n, some t) => inferInstanceAs (Decidable (t ∈ table.firstOf n))

/-- What a table says, as a finite set of facts. -/
def facts (g : Grammar) (table : FirstTable) : Finset (Nat × Option Nat) :=
  (possibleFacts g).filter table.Says

/-- The bound on the number of sweeps is above the number of facts that they can add. -/
theorem card_possibleFacts_lt (g : Grammar) : (possibleFacts g).card < sweepBound g := by
  have hkeys : g.nonterminals.keys.toFinset.card ≤ g.nonterminals.size :=
    (List.toFinset_card_le _).trans_eq g.nonterminals.length_keys
  have hterminals : g.rightTerminals.toFinset.card ≤ g.symbolCount :=
    (List.toFinset_card_le _).trans g.length_rightTerminals_le
  have hproduct := Nat.mul_le_mul hkeys (Nat.add_le_add_right hterminals 1)
  rw [possibleFacts, Finset.card_product, Finset.card_insertNone]
  unfold sweepBound
  omega

theorem mem_of_isNullable {table : FirstTable} {n : Nat} (h : table.isNullable n = true) :
    n ∈ table := by
  rw [mem_iff_isSome]
  unfold isNullable at h
  cases htable : table[n]? <;> simp_all

/-- Only nonterminals that a table knows have terminals in it. -/
theorem mem_of_mem_firstOf {table : FirstTable} {n t : Nat} (h : t ∈ table.firstOf n) :
    n ∈ table := by
  rw [mem_iff_isSome]
  unfold firstOf at h
  cases htable : table[n]? <;> simp_all

/-- The facts of a table are all that it says. -/
theorem Within.mem_facts {g : Grammar} {table : FirstTable} (h : table.Within g)
    {fact : Nat × Option Nat} : fact ∈ table.facts g ↔ table.Says fact := by
  rw [facts, Finset.mem_filter, and_iff_right_iff_imp]
  intro hsays
  rw [possibleFacts, Finset.mem_product]
  rcases fact with ⟨n, _ | t⟩
  · have hn := (h.members n).mp (mem_of_isNullable hsays)
    simp [IndexMap.mem_keys, hn]
  · have hn := (h.members n).mp (mem_of_mem_firstOf hsays)
    have ht := h.first n t hsays
    simp [IndexMap.mem_keys, hn, ht]

/-- A sweep that changes a table makes it say more. -/
theorem Within.facts_ssubset {g : Grammar} {table : FirstTable} (h : table.Within g)
    (hne : (table.sweep g).1 ≠ table) : table.facts g ⊂ (table.sweep g).1.facts g := by
  have hbelow := below_foldl_absorb g.ruleList table
  rw [← fst_sweep] at hbelow
  rw [Finset.ssubset_iff_subset_ne]
  constructor
  · intro fact hfact
    rw [h.mem_facts] at hfact
    rw [h.sweep.mem_facts]
    rcases fact with ⟨n, _ | t⟩
    · exact hbelow.nullable n hfact
    · exact hbelow.first n t hfact
  · intro heq
    refine hne (Below.antisymm ⟨?_, ?_, ?_⟩ hbelow)
    · intro n
      exact (hbelow.members n).symm
    · intro n hn
      have hmem : ((n, none) : Nat × Option Nat) ∈ table.facts g := by
        rw [heq, h.sweep.mem_facts]
        exact hn
      exact h.mem_facts.mp hmem
    · intro n t ht
      have hmem : ((n, some t) : Nat × Option Nat) ∈ table.facts g := by
        rw [heq, h.sweep.mem_facts]
        exact ht
      exact h.mem_facts.mp hmem

/-- A sweep adds nothing to the FIRST table of a grammar. -/
theorem sweep_ofGrammar (g : Grammar) : sweep g (ofGrammar g) = (ofGrammar g, false) :=
  round_iterateWhileChanged_of_facts (reportsChanges_sweep g) (facts g) (possibleFacts g)
    (fun _ h => Within.sweep h) (fun _ h hne => Within.facts_ssubset h hne)
    (fun _ => Finset.filter_subset _ _) (card_possibleFacts_lt g) (within_initial g)

/-- A table that every rule of a grammar leaves as it is. -/
structure Closed (g : Grammar) (table : FirstTable) : Prop where
  nullable : ∀ r ∈ g.ruleList, table.allNullable r.right = true → table.isNullable r.left = true
  first : ∀ r ∈ g.ruleList, ∀ t ∈ table.firstOfString r.right, t ∈ table.firstOf r.left

/-- The FIRST table of a grammar is closed under the rules, provided that their left-hand sides are
known. -/
theorem closed_ofGrammar {g : Grammar}
    (known : ∀ r ∈ g.ruleList, r.left ∈ g.nonterminals) : (ofGrammar g).Closed g := by
  have hbelow : Below (g.ruleList.foldl absorb (ofGrammar g)) (ofGrammar g) := by
    rw [← fst_sweep, sweep_ofGrammar]
    exact Below.refl _
  have habsorb := absorb_eq_of_foldl_below hbelow
  have hmember : ∀ r ∈ g.ruleList, r.left ∈ ofGrammar g := fun r hr =>
    ((within_ofGrammar g).members r.left).mpr (known r hr)
  constructor
  · intro r hr hnullable
    rw [← habsorb r hr]
    exact isNullable_absorb.mpr (Or.inr ⟨rfl, hmember r hr, hnullable⟩)
  · intro r hr t ht
    rw [← habsorb r hr]
    exact mem_firstOf_absorb.mpr (Or.inr ⟨rfl, hmember r hr, ht⟩)

end FirstTable
end ParserGen
