import ParserGen.Automaton.Closure
import ParserGen.Proofs.Grammar.FirstSets

/-!
# Closures as inductive definitions

What an item of a closure is, and which lookaheads it has, is stated here without the iteration: an
item comes from the item set one begins with or is asked for by an item of the closure; a lookahead
of an item comes from the item set, can begin what follows the symbol that asked for the item, or is
passed on by the item that asked.

Main results:

- Theorem `ItemSet.mem_grow` and `ItemSet.mem_lookaheads_grow`: what one round adds.
- Theorem `ItemSet.grow_closure`: the iteration ends in a closed item set.
- Theorems `ItemSet.mem_closure` and `ItemSet.mem_lookaheads_closure`: the closure
  has exactly the items and the lookaheads of the inductive definitions.
-/

namespace ParserGen

/-! ## Items and rows -/

namespace Item

@[simp]
theorem start_inj {r r' : Nat} : Item.start r = Item.start r' ↔ r = r' := by
  simp [Item.start]

/-- The start of a rule has the whole right-hand side before it. -/
theorem rest_start {g : Grammar} (h : g.Augmented) {r : Rule} (hr : r ∈ g.ruleList) :
    (Item.start r.id).rest g = r.right := by
  simp [Item.rest, Item.start, h.mem_ruleList.mp hr]

end Item

namespace ItemSet

theorem mem_iff_isSome {s : ItemSet} {i : Item} : i ∈ s ↔ s[i]?.isSome = true :=
  Std.ExtTreeMap.isSome_getElem?_iff_mem.symm

/-- Only items of a set have lookaheads in it. -/
theorem mem_of_mem_lookaheads {s : ItemSet} {i : Item} {t : Nat} (h : t ∈ s.lookaheads i) :
    i ∈ s := by
  rw [lookaheads_eq] at h
  rw [mem_iff_isSome]
  cases hs : s[i]? <;> simp_all

/-- A row of a set is an item with its lookaheads. -/
theorem mem_toList_iff {s : ItemSet} {row : Item × IdSet} :
    row ∈ s.toList ↔ row.1 ∈ s ∧ row.2 = s.lookaheads row.1 := by
  rw [lookaheads_eq, mem_iff_isSome]
  have hrow : row ∈ s.toList ↔ s[row.1]? = some row.2 :=
    Std.ExtTreeMap.mem_toList_iff_getElem?_eq_some
  rw [hrow]
  cases hs : s[row.1]? with
  | none => simp
  | some lookaheads => simp [eq_comm]

/-- To speak of some row is to speak of some item and its lookaheads. -/
theorem exists_row_iff {s : ItemSet} {p : Item → IdSet → Prop} :
    (∃ row ∈ s.toList, p row.1 row.2) ↔ ∃ i ∈ s, p i (s.lookaheads i) := by
  constructor
  · rintro ⟨row, hrow, hp⟩
    obtain ⟨hi, hl⟩ := mem_toList_iff.mp hrow
    exact ⟨row.1, hi, hl ▸ hp⟩
  · rintro ⟨i, hi, hp⟩
    exact ⟨(i, s.lookaheads i), mem_toList_iff.mpr ⟨hi, rfl⟩, hp⟩

@[simp]
theorem not_mem_empty {i : Item} : ¬ i ∈ (∅ : ItemSet) := Std.ExtTreeMap.not_mem_empty

/-- Every lookahead of an item is among all the lookaheads of the set. -/
theorem mem_allLookaheads {s : ItemSet} {i : Item} {t : Nat} (h : t ∈ s.lookaheads i) :
    t ∈ s.allLookaheads := by
  have hrow : ∀ (all : IdSet) (row : Item × IdSet), t ∈ all ∪ row.2 ↔ t ∈ all ∨ t ∈ row.2 :=
    fun _ _ => IdSet.mem_union
  rw [allLookaheads, Std.ExtTreeMap.foldl_eq_foldl_toList, foldl_iff (motive := (t ∈ ·)) hrow]
  exact Or.inr ((exists_row_iff (p := fun _ l => t ∈ l)).mpr ⟨i, mem_of_mem_lookaheads h, h⟩)

/-! ## Inserting many rows -/

/-- Insert the rows that the members of a list give rise to. -/
def insertAll {α : Type} (row? : α → Option (Item × IdSet)) (l : List α) (items : ItemSet) :
    ItemSet :=
  l.foldl
    (fun items a =>
      match row? a with
      | some row => items.insert row.1 row.2
      | none => items)
    items

/-- An item that no row is about keeps its lookaheads. -/
theorem getElem?_insertAll_of_forall_ne {α : Type} {row? : α → Option (Item × IdSet)}
    {l : List α} {items : ItemSet} {i : Item}
    (h : ∀ a ∈ l, ∀ row, row? a = some row → row.1 ≠ i) :
    (insertAll row? l items)[i]? = items[i]? := by
  induction l generalizing items with
  | nil => rfl
  | cons a l ih =>
    have hrest := fun b hb => h b (List.mem_cons_of_mem a hb)
    simp only [insertAll, List.foldl_cons] at ih ⊢
    rw [ih hrest]
    split
    · rename_i row hrow
      have hne := h a List.mem_cons_self row hrow
      rw [Std.ExtTreeMap.getElem?_insert, if_neg]
      rwa [Std.LawfulEqOrd.compare_eq_iff_eq]
    · rfl

/-- An item gets the lookaheads of a row about it, if the other rows about it say the same. -/
theorem getElem?_insertAll_of_mem {α : Type} {row? : α → Option (Item × IdSet)} {l : List α}
    {items : ItemSet} {a : α} {i : Item} {lookaheads : IdSet} (ha : a ∈ l)
    (hrow : row? a = some (i, lookaheads))
    (unique : ∀ b ∈ l, ∀ row, row? b = some row → row.1 = i → row.2 = lookaheads) :
    (insertAll row? l items)[i]? = some lookaheads := by
  induction l generalizing items a with
  | nil => cases ha
  | cons b l ih =>
    have hunique := fun c hc => unique c (List.mem_cons_of_mem b hc)
    by_cases hlater : ∃ c ∈ l, ∃ row, row? c = some row ∧ row.1 = i
    · obtain ⟨c, hc, row, hrow', hi⟩ := hlater
      have hl := hunique c hc row hrow' hi
      refine ih hc ?_ hunique
      rw [hrow', ← hi, ← hl]
    · have hhead : a = b := by
        rcases List.mem_cons.mp ha with hab | hal
        · exact hab
        · exact absurd ⟨a, hal, _, hrow, rfl⟩ hlater
      subst hhead
      have hrest : (insertAll row? l (items.insert i lookaheads))[i]? =
          (items.insert i lookaheads)[i]? :=
        getElem?_insertAll_of_forall_ne fun c hc row hrow' hi => hlater ⟨c, hc, row, hrow', hi⟩
      rw [Std.ExtTreeMap.getElem?_insert_self] at hrest
      simpa only [insertAll, List.foldl_cons, hrow] using hrest

/-! ## One round -/

section Round

variable {g : Grammar} {first : FirstTable} {s : ItemSet}

/-- The lookaheads that a table of demands has for a nonterminal. -/
def demanded (wanted : Std.ExtTreeMap Nat IdSet) (n : Nat) : IdSet := wanted[n]?.getD ∅

/-- Add what one row demands. -/
def addDemand (g : Grammar) (first : FirstTable) (wanted : Std.ExtTreeMap Nat IdSet)
    (row : Item × IdSet) : Std.ExtTreeMap Nat IdSet :=
  match row.1.rest g with
  | .nonterminal n :: rest =>
      wanted.alter n fun old => some (old.getD ∅ ∪ first.firstWith rest row.2)
  | _ => wanted

theorem demands_eq_foldl : s.demands g first = s.toList.foldl (addDemand g first) ∅ := rfl

/-- A row demands the nonterminal after its marker. -/
theorem mem_addDemand {wanted : Std.ExtTreeMap Nat IdSet} {row : Item × IdSet} {n : Nat} :
    n ∈ addDemand g first wanted row ↔
      n ∈ wanted ∨ ∃ rest, row.1.rest g = .nonterminal n :: rest := by
  unfold addDemand
  split
  · rename_i m rest hrest
    simp only [← Std.ExtTreeMap.isSome_getElem?_iff_mem, Std.ExtTreeMap.getElem?_alter,
      Std.LawfulEqOrd.compare_eq_iff_eq, hrest]
    by_cases hm : m = n
    · simp [hm]
    · simp [hm]
  · rename_i hrest
    have hnone : ¬ ∃ rest, row.1.rest g = .nonterminal n :: rest := by
      rintro ⟨rest, h⟩
      exact hrest n rest h
    simp [hnone]

/-- A row demands its nonterminal with what can follow it in the item. -/
theorem mem_demanded_addDemand {wanted : Std.ExtTreeMap Nat IdSet} {row : Item × IdSet}
    {n t : Nat} :
    t ∈ demanded (addDemand g first wanted row) n ↔
      t ∈ demanded wanted n ∨
        ∃ rest, row.1.rest g = .nonterminal n :: rest ∧ t ∈ first.firstWith rest row.2 := by
  unfold addDemand
  split
  · rename_i m rest hrest
    simp only [demanded, Std.ExtTreeMap.getElem?_alter, Std.LawfulEqOrd.compare_eq_iff_eq, hrest]
    by_cases hm : m = n
    · simp [hm]
    · simp [hm]
  · rename_i hrest
    have hnone : ¬ ∃ rest, row.1.rest g = .nonterminal n :: rest ∧
        t ∈ first.firstWith rest row.2 := by
      rintro ⟨rest, h, _⟩
      exact hrest n rest h
    simp [hnone]

/-- The nonterminals that are demanded are those after a marker. -/
theorem mem_demands (first : FirstTable) {n : Nat} :
    n ∈ s.demands g first ↔ ∃ i ∈ s, ∃ rest, i.rest g = .nonterminal n :: rest := by
  have hrow := fun wanted row =>
    (mem_addDemand : n ∈ addDemand g first wanted row ↔ n ∈ wanted ∨ _)
  rw [demands_eq_foldl, foldl_iff (motive := (n ∈ ·)) hrow,
    or_iff_right Std.ExtTreeMap.not_mem_empty]
  exact exists_row_iff (p := fun i _ => ∃ rest, i.rest g = .nonterminal n :: rest)

/-- A demanded nonterminal is given what can follow it after a marker. -/
theorem mem_demanded {n t : Nat} :
    t ∈ demanded (s.demands g first) n ↔
      ∃ i ∈ s, ∃ rest, i.rest g = .nonterminal n :: rest ∧
        t ∈ first.firstWith rest (s.lookaheads i) := by
  have hrow := fun wanted row =>
    (mem_demanded_addDemand :
      t ∈ demanded (addDemand g first wanted row) n ↔ t ∈ demanded wanted n ∨ _)
  have hempty : ¬ t ∈ demanded ∅ n := by simp [demanded]
  rw [demands_eq_foldl, foldl_iff (motive := (t ∈ demanded · n)) hrow, or_iff_right hempty]
  exact exists_row_iff
    (p := fun i l => ∃ rest, i.rest g = .nonterminal n :: rest ∧ t ∈ first.firstWith rest l)

/-! ## Inclusion and growth -/

/-- `big` has the items of `small`, with the lookaheads of `small`, and maybe more of both. -/
structure Includes (big small : ItemSet) : Prop where
  items : ∀ i ∈ small, i ∈ big
  lookaheads : ∀ i t, t ∈ small.lookaheads i → t ∈ big.lookaheads i

theorem Includes.refl (s : ItemSet) : s.Includes s := ⟨fun _ hi => hi, fun _ _ ht => ht⟩

theorem Includes.trans {s u c : ItemSet} (h : s.Includes u) (h' : u.Includes c) : s.Includes c :=
  ⟨fun i hi => h.items i (h'.items i hi), fun i t ht => h.lookaheads i t (h'.lookaheads i t ht)⟩

/-- Sets that include each other are equal. -/
theorem Includes.antisymm {s u : ItemSet} (h : s.Includes u) (h' : u.Includes s) : s = u := by
  refine ext_lookaheads (fun i => ⟨h'.items i, h.items i⟩) fun i => ?_
  ext t
  exact ⟨h'.lookaheads i t, h.lookaheads i t⟩

/-- A row only adds to a set. -/
theorem includes_addRow (s : ItemSet) (row : Item × IdSet) : (s.addRow row).Includes s :=
  ⟨fun _ hi => mem_addLookaheads.mpr (Or.inr hi),
    fun _ _ ht => mem_lookaheads_addLookaheads.mpr (Or.inl ht)⟩

/-- A row has something new exactly if it changes the set. -/
theorem isNews_iff {row : Item × IdSet} : s.isNews row = true ↔ s.addRow row ≠ s := by
  unfold isNews
  cases hrow : s[row.1]? with
  | none =>
    refine iff_of_true rfl fun hsame => ?_
    have hmem : row.1 ∈ s.addRow row := mem_addLookaheads.mpr (Or.inl rfl)
    rw [hsame, mem_iff_isSome, hrow] at hmem
    cases hmem
  | some lookaheads =>
    -- A set changes if and only if the lookaheads of the row's item do.
    have hsame : s.addRow row = s ↔ lookaheads ∪ row.2 = lookaheads := by
      rw [addRow, addLookaheads]
      constructor
      · intro h
        have hget := congrArg (·[row.1]?) h
        simpa [Std.ExtTreeMap.getElem?_alter, hrow] using hget
      · intro h
        refine Std.ExtTreeMap.ext_getElem? fun i => ?_
        rw [Std.ExtTreeMap.getElem?_alter]
        split
        · rename_i hi
          rw [← Std.LawfulEqOrd.eq_of_compare hi, hrow, Option.getD_some, h]
        · rfl
    rw [ne_eq, hsame]
    exact IdSet.growsBy_iff

/-- The flag of a round is set exactly if the round changes the set. -/
theorem reportsChanges_grow (g : Grammar) (first : FirstTable) : ReportsChanges (grow g first) :=
  fun s => reportsChanges_roundOver (fun small big => Includes big small) Includes.refl
    (fun h h' => h'.trans h) (fun h h' => h'.antisymm h) includes_addRow (fun _ _ => isNews_iff)
    (s.spawned g first).toList s

/-! ## What one round adds -/

/-- The starting item of a rule, with what is demanded of its left-hand side. -/
def startRow? (wanted : Std.ExtTreeMap Nat IdSet) (r : Rule) : Option (Item × IdSet) :=
  wanted[r.left]?.map fun lookaheads => (Item.start r.id, lookaheads)

theorem spawned_eq_insertAll :
    s.spawned g first = insertAll (startRow? (s.demands g first)) g.ruleList ∅ := by
  dsimp only [spawned, insertAll]
  congr 1
  funext items r
  unfold startRow?
  cases (s.demands g first)[r.left]? <;> rfl

/-- A rule of a demanded nonterminal is started with what is demanded. -/
theorem getElem?_spawned_start (h : g.Keyed) {r : Rule} (hr : r ∈ g.ruleList)
    {lookaheads : IdSet} (hwanted : (s.demands g first)[r.left]? = some lookaheads) :
    (s.spawned g first)[Item.start r.id]? = some lookaheads := by
  rw [spawned_eq_insertAll]
  refine getElem?_insertAll_of_mem hr (by simp [startRow?, hwanted]) ?_
  intro r' hr' row hrow hstart
  obtain ⟨l, hl, rfl⟩ := Option.map_eq_some_iff.mp hrow
  have hsame := h.eq_of_id_eq hr' hr (Item.start_inj.mp hstart)
  rw [hsame, hwanted] at hl
  exact (Option.some.inj hl).symm

/-- A round asks for the rules of the nonterminals after markers. -/
theorem mem_spawned (h : g.Keyed) {i : Item} :
    i ∈ s.spawned g first ↔
      ∃ r ∈ g.ruleList, i = Item.start r.id ∧
        ∃ j ∈ s, ∃ rest, j.rest g = .nonterminal r.left :: rest := by
  simp only [← mem_demands first]
  constructor
  · intro hi
    by_contra hnone
    have hne : ∀ r ∈ g.ruleList, ∀ row,
        startRow? (s.demands g first) r = some row → row.1 ≠ i := by
      intro r hr row hrow hstart
      obtain ⟨l, hl, rfl⟩ := Option.map_eq_some_iff.mp hrow
      refine hnone ⟨r, hr, hstart.symm, ?_⟩
      rw [← Std.ExtTreeMap.isSome_getElem?_iff_mem, hl]
      rfl
    rw [mem_iff_isSome, spawned_eq_insertAll, getElem?_insertAll_of_forall_ne hne] at hi
    simp at hi
  · rintro ⟨r, hr, rfl, hwanted⟩
    obtain ⟨lookaheads, hl⟩ := Option.isSome_iff_exists.mp
      (Std.ExtTreeMap.isSome_getElem?_iff_mem.mpr hwanted)
    rw [mem_iff_isSome, getElem?_spawned_start h hr hl]
    rfl

/-- The rules that are asked for get the lookaheads that can follow the asking nonterminals. -/
theorem mem_lookaheads_spawned (h : g.Keyed) {i : Item} {t : Nat} :
    t ∈ (s.spawned g first).lookaheads i ↔
      ∃ r ∈ g.ruleList, i = Item.start r.id ∧
        ∃ j ∈ s, ∃ rest, j.rest g = .nonterminal r.left :: rest ∧
          t ∈ first.firstWith rest (s.lookaheads j) := by
  simp only [← mem_demanded]
  constructor
  · intro ht
    obtain ⟨r, hr, rfl, hwanted⟩ := (mem_spawned h).mp (mem_of_mem_lookaheads ht)
    obtain ⟨lookaheads, hl⟩ := Option.isSome_iff_exists.mp
      (Std.ExtTreeMap.isSome_getElem?_iff_mem.mpr ((mem_demands first).mpr hwanted))
    rw [lookaheads_eq, getElem?_spawned_start h hr hl] at ht
    exact ⟨r, hr, rfl, by simpa [demanded, hl] using ht⟩
  · rintro ⟨r, hr, rfl, ht⟩
    cases hl : (s.demands g first)[r.left]? with
    | none => simp [demanded, hl] at ht
    | some lookaheads =>
      rw [lookaheads_eq, getElem?_spawned_start h hr hl]
      simpa [demanded, hl] using ht

/-- What a round makes of a set is its union with what it asks for. -/
theorem fst_grow (g : Grammar) (first : FirstTable) (s : ItemSet) :
    (s.grow g first).1 = s.join (s.spawned g first) :=
  fst_roundOver ..

/-- A round keeps the items and adds those that are asked for. -/
theorem mem_grow (h : g.Keyed) {i : Item} :
    i ∈ (s.grow g first).1 ↔
      i ∈ s ∨ ∃ r ∈ g.ruleList, i = Item.start r.id ∧
        ∃ j ∈ s, ∃ rest, j.rest g = .nonterminal r.left :: rest := by
  rw [fst_grow, mem_join, mem_spawned h]

/-- A round keeps the lookaheads and adds those that can follow the nonterminal that asks. -/
theorem mem_lookaheads_grow (h : g.Keyed) {i : Item} {t : Nat} :
    t ∈ (s.grow g first).1.lookaheads i ↔
      t ∈ s.lookaheads i ∨ ∃ r ∈ g.ruleList, i = Item.start r.id ∧
        ∃ j ∈ s, ∃ rest, j.rest g = .nonterminal r.left :: rest ∧
          t ∈ first.firstWith rest (s.lookaheads j) := by
  rw [fst_grow, lookaheads_join, IdSet.mem_union, mem_lookaheads_spawned h]

/-- A round only adds to a set. -/
theorem includes_grow (h : g.Keyed) (s : ItemSet) : (s.grow g first).1.Includes s :=
  ⟨fun _ hi => (mem_grow h).mpr (Or.inl hi), fun _ _ ht => (mem_lookaheads_grow h).mpr (Or.inl ht)⟩

end Round

/-! ## The closure as an inductive definition -/

/-- An item of the closure: an item of the set, or one that starts a rule of a nonterminal that
stands after the marker of an item of the closure. -/
inductive ClosureItem (g : Grammar) (s : ItemSet) : Item → Prop
  | kernel {i : Item} : i ∈ s → ClosureItem g s i
  | start {i : Item} {r : Rule} {rest : List Symbol} : ClosureItem g s i →
      i.rest g = .nonterminal r.left :: rest → r ∈ g.ruleList → ClosureItem g s (Item.start r.id)

/-- A lookahead in the closure: a lookahead of the set, one that begins what follows the symbol that
asks for the item, or one that the asking item passes on. -/
inductive ClosureLookahead (g : Grammar) (first : FirstTable) (s : ItemSet) : Item → Nat → Prop
  | kernel {i : Item} {t : Nat} : t ∈ s.lookaheads i → ClosureLookahead g first s i t
  | begins {i : Item} {r : Rule} {rest : List Symbol} {t : Nat} : ClosureItem g s i →
      i.rest g = .nonterminal r.left :: rest → r ∈ g.ruleList → t ∈ first.firstOfString rest →
      ClosureLookahead g first s (Item.start r.id) t
  | passed {i : Item} {r : Rule} {rest : List Symbol} {t : Nat} :
      ClosureLookahead g first s i t → i.rest g = .nonterminal r.left :: rest → r ∈ g.ruleList →
      first.allNullable rest = true → ClosureLookahead g first s (Item.start r.id) t

/-- What the iteration finds belongs to the inductive closure. -/
theorem closure_sound {g : Grammar} (h : g.Keyed) (first : FirstTable) (s : ItemSet) :
    (∀ i ∈ s.closure g first, ClosureItem g s i) ∧
      ∀ i t, t ∈ (s.closure g first).lookaheads i → ClosureLookahead g first s i t := by
  refine iterateWhileChanged_induction (motive := fun x : ItemSet =>
    (∀ i ∈ x, ClosureItem g s i) ∧ ∀ i t, t ∈ x.lookaheads i → ClosureLookahead g first s i t)
    ?_ _ ⟨fun _ hi => .kernel hi, fun _ _ ht => .kernel ht⟩
  rintro x ⟨hitems, hlookaheads⟩
  constructor
  · intro i hi
    rcases (mem_grow h).mp hi with hold | ⟨r, hr, rfl, j, hj, rest, hrest⟩
    · exact hitems i hold
    · exact .start (hitems j hj) hrest hr
  · intro i t ht
    rcases (mem_lookaheads_grow h).mp ht with hold | ⟨r, hr, rfl, j, hj, rest, hrest, hwith⟩
    · exact hlookaheads i t hold
    · rcases FirstTable.mem_firstWith.mp hwith with hfirst | ⟨hnullable, hpassed⟩
      · exact .begins (hitems j hj) hrest hr hfirst
      · exact .passed (hlookaheads j t hpassed) hrest hr hnullable

/-! ## The closed item set -/

section Fixed

variable {g : Grammar} {first : FirstTable}

/-- What growth may add to a set: the starting item of a rule, or a lookahead of such an item. -/
def possibleGrowth (g : Grammar) (s : ItemSet) : Finset (Nat × Option Nat) :=
  (g.ruleList.map (·.id)).toFinset ×ˢ
    Finset.insertNone (g.rightTerminals.toFinset ∪ Finset.range s.allLookaheads.bound)

/-- Whether a set has the starting item of a rule, or a lookahead of that item. -/
def HasGrown (s : ItemSet) : Nat × Option Nat → Prop
  | (r, none) => Item.start r ∈ s
  | (r, some t) => t ∈ s.lookaheads (Item.start r)

/-- What a set has can be looked up. -/
instance (s : ItemSet) : DecidablePred s.HasGrown := fun
  | (r, none) => inferInstanceAs (Decidable (Item.start r ∈ s))
  | (r, some t) => inferInstanceAs (Decidable (t ∈ s.lookaheads (Item.start r)))

/-- What `x` has of what growth may add to `s`. -/
def growth (g : Grammar) (s x : ItemSet) : Finset (Nat × Option Nat) :=
  (possibleGrowth g s).filter x.HasGrown

/-- The bound on the number of rounds is above the number of facts that they can add. -/
theorem card_possibleGrowth_lt (g : Grammar) (s : ItemSet) :
    (possibleGrowth g s).card < growthBound g s := by
  have hrules : (g.ruleList.map (·.id)).toFinset.card ≤ g.rules.size := by
    refine (List.toFinset_card_le _).trans_eq ?_
    rw [List.length_map, Grammar.length_ruleList]
  have hterminals : (g.rightTerminals.toFinset ∪ Finset.range s.allLookaheads.bound).card ≤
      g.symbolCount + s.allLookaheads.bound := by
    have hright := (List.toFinset_card_le g.rightTerminals).trans g.length_rightTerminals_le
    have hunion := Finset.card_union_le g.rightTerminals.toFinset
      (Finset.range s.allLookaheads.bound)
    rw [Finset.card_range] at hunion
    omega
  have hproduct := Nat.mul_le_mul hrules (Nat.add_le_add_right hterminals 1)
  rw [possibleGrowth, Finset.card_product, Finset.card_insertNone]
  have hcomm : g.symbolCount + s.allLookaheads.bound + 1 =
      1 + g.symbolCount + s.allLookaheads.bound := by omega
  rw [hcomm] at hproduct
  unfold growthBound
  omega

/-- The lookaheads of `x` come from the rules or from `s`. -/
def LookaheadsWithin (g : Grammar) (s x : ItemSet) : Prop :=
  ∀ i t, t ∈ x.lookaheads i → t ∈ g.rightTerminals ∨ t < s.allLookaheads.bound

/-- A symbol after a marker stands on a right-hand side. -/
theorem mem_right_of_mem_rest {i : Item} {x : Symbol} (h : x ∈ i.rest g) :
    ∃ r ∈ g.ruleList, x ∈ r.right := by
  unfold Item.rest at h
  split at h
  · rename_i r hr
    exact ⟨r, Grammar.mem_ruleList_iff_exists.mpr ⟨_, hr⟩, List.mem_of_mem_drop h⟩
  · cases h

/-- A round adds only lookaheads that were there or stand on right-hand sides. -/
theorem LookaheadsWithin.grow (h : g.Keyed) (hfirst : first.Within g) {s x : ItemSet}
    (hx : LookaheadsWithin g s x) : LookaheadsWithin g s (x.grow g first).1 := by
  intro i t ht
  rcases (mem_lookaheads_grow h).mp ht with hold | ⟨r, _, _, j, _, rest, hrest, hwith⟩
  · exact hx i t hold
  · rcases FirstTable.mem_firstWith.mp hwith with hbegins | ⟨_, hpassed⟩
    · rcases hfirst.mem_firstOfString hbegins with hright | hmem
      · exact Or.inl hright
      · have hafter : Symbol.terminal t ∈ j.rest g := by
          rw [hrest]
          exact List.mem_cons_of_mem _ hmem
        obtain ⟨r', hr', hright⟩ := mem_right_of_mem_rest hafter
        exact Or.inl (Grammar.mem_rightTerminals hr' hright)
    · exact hx j t hpassed

/-- The growth of a set is all that it has of the starting items. -/
theorem mem_growth {s x : ItemSet} (hx : LookaheadsWithin g s x) {r : Rule}
    (hr : r ∈ g.ruleList) (what : Option Nat) :
    (r.id, what) ∈ growth g s x ↔ x.HasGrown (r.id, what) := by
  rw [growth, Finset.mem_filter, and_iff_right_iff_imp]
  intro hgrown
  have hid : r.id ∈ (g.ruleList.map (·.id)).toFinset :=
    List.mem_toFinset.mpr (List.mem_map_of_mem hr)
  rw [possibleGrowth, Finset.mem_product]
  refine ⟨hid, ?_⟩
  cases what with
  | none => exact Finset.none_mem_insertNone
  | some t =>
    rcases hx _ _ hgrown with hright | hbound
    · simp [hright]
    · simp [hbound]

/-- A round that changes a set adds something that growth may add. -/
theorem growth_ssubset (h : g.Keyed) (hfirst : first.Within g) {s x : ItemSet}
    (hx : LookaheadsWithin g s x) (hne : (x.grow g first).1 ≠ x) :
    growth g s x ⊂ growth g s (x.grow g first).1 := by
  have hgrown := hx.grow h hfirst
  rw [Finset.ssubset_iff_subset_ne]
  constructor
  · intro fact hfact
    obtain ⟨hpossible, hhas⟩ := Finset.mem_filter.mp hfact
    refine Finset.mem_filter.mpr ⟨hpossible, ?_⟩
    rcases fact with ⟨r, _ | t⟩
    · exact (mem_grow h).mpr (Or.inl hhas)
    · exact (mem_lookaheads_grow h).mpr (Or.inl hhas)
  · intro heq
    refine hne (ext_lookaheads ?_ ?_)
    · intro i
      refine ⟨fun hi => ?_, fun hi => (mem_grow h).mpr (Or.inl hi)⟩
      rcases (mem_grow h).mp hi with hold | ⟨r, hr, rfl, _⟩
      · exact hold
      · have hmem := (mem_growth hgrown hr none).mpr hi
        rw [← heq] at hmem
        exact (mem_growth hx hr _).mp hmem
    · intro i
      ext t
      refine ⟨fun ht => ?_, fun ht => (mem_lookaheads_grow h).mpr (Or.inl ht)⟩
      rcases (mem_lookaheads_grow h).mp ht with hold | ⟨r, hr, rfl, _⟩
      · exact hold
      · have hmem := (mem_growth hgrown hr (some t)).mpr ht
        rw [← heq] at hmem
        exact (mem_growth hx hr _).mp hmem

/-- Growing a closure changes nothing, and this is reported. -/
theorem grow_closure (h : g.Keyed) (hfirst : first.Within g) (s : ItemSet) :
    (s.closure g first).grow g first = (s.closure g first, false) := by
  refine round_iterateWhileChanged_of_facts (motive := LookaheadsWithin g s)
    (reportsChanges_grow g first) (growth g s) (possibleGrowth g s) ?_ ?_ ?_
    (card_possibleGrowth_lt g s) ?_
  · intro x hx
    exact hx.grow h hfirst
  · intro x hx hne
    exact growth_ssubset h hfirst hx hne
  · intro x
    exact Finset.filter_subset _ _
  · intro i t ht
    exact Or.inr (IdSet.lt_bound_of_mem (mem_allLookaheads ht))

/-- A round adds nothing to a closure. -/
theorem fst_grow_closure (h : g.Keyed) (hfirst : first.Within g) (s : ItemSet) :
    ((s.closure g first).grow g first).1 = s.closure g first :=
  congrArg Prod.fst (grow_closure h hfirst s)

/-- The closure includes the set one begins with. -/
theorem le_closure (h : g.Keyed) (s : ItemSet) :
    (∀ i ∈ s, i ∈ s.closure g first) ∧
      ∀ i t, t ∈ s.lookaheads i → t ∈ (s.closure g first).lookaheads i := by
  refine iterateWhileChanged_induction (motive := fun x : ItemSet =>
    (∀ i ∈ s, i ∈ x) ∧ ∀ i t, t ∈ s.lookaheads i → t ∈ x.lookaheads i)
    ?_ _ ⟨fun _ hi => hi, fun _ _ ht => ht⟩
  rintro x ⟨hitems, hlookaheads⟩
  exact ⟨fun i hi => (mem_grow h).mpr (Or.inl (hitems i hi)),
    fun i t ht => (mem_lookaheads_grow h).mpr (Or.inl (hlookaheads i t ht))⟩

/-- The closure has exactly the items of the inductive definition. -/
theorem mem_closure (h : g.Keyed) (hfirst : first.Within g) {s : ItemSet} {i : Item} :
    i ∈ s.closure g first ↔ ClosureItem g s i := by
  refine ⟨(closure_sound h first s).1 i, fun hi => ?_⟩
  induction hi with
  | kernel hi => exact (le_closure h s).1 _ hi
  | start _ hrest hr ih =>
    rw [← fst_grow_closure h hfirst]
    exact (mem_grow h).mpr (Or.inr ⟨_, hr, rfl, _, ih, _, hrest⟩)

/-- The closure gives its items exactly the lookaheads of the inductive definition. -/
theorem mem_lookaheads_closure (h : g.Keyed) (hfirst : first.Within g) {s : ItemSet}
    {i : Item} {t : Nat} :
    t ∈ (s.closure g first).lookaheads i ↔ ClosureLookahead g first s i t := by
  refine ⟨(closure_sound h first s).2 i t, fun ht => ?_⟩
  induction ht with
  | kernel ht => exact (le_closure h s).2 _ _ ht
  | begins hi hrest hr hbegins =>
    rw [← fst_grow_closure h hfirst]
    have hmem := (mem_closure h hfirst).mpr hi
    exact (mem_lookaheads_grow h).mpr (Or.inr ⟨_, hr, rfl, _, hmem, _, hrest,
      FirstTable.mem_firstWith.mpr (Or.inl hbegins)⟩)
  | passed _ hrest hr hnullable ih =>
    rw [← fst_grow_closure h hfirst]
    exact (mem_lookaheads_grow h).mpr (Or.inr ⟨_, hr, rfl, _, mem_of_mem_lookaheads ih, _,
      hrest, FirstTable.mem_firstWith.mpr (Or.inr ⟨hnullable, ih⟩)⟩)

end Fixed
end ItemSet
end ParserGen
