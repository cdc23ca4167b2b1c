/-!
# Sets of identifiers

A finite set of natural numbers, kept as the bits of one number: `i` is a member if bit `i` is
set.  Equal sets are equal values, so a set can be compared and can be part of a key.  Lookahead
sets are sets of terminal identifiers.
-/

namespace ParserGen

/-- A finite set of natural numbers. -/
structure IdSet where
  bits : Nat
deriving DecidableEq, Repr

namespace IdSet

/-- The set without members. -/
def empty : IdSet := ⟨0⟩

instance : EmptyCollection IdSet := ⟨empty⟩
instance : Inhabited IdSet := ⟨empty⟩

def contains (s : IdSet) (i : Nat) : Bool := s.bits.testBit i

instance : Membership Nat IdSet := ⟨fun s i => s.contains i = true⟩

/-- Membership is a test of one bit. -/
instance (i : Nat) (s : IdSet) : Decidable (i ∈ s) :=
  inferInstanceAs (Decidable (s.contains i = true))

/-- The set whose only member is `i`. -/
def singleton (i : Nat) : IdSet := ⟨1 <<< i⟩

def union (s t : IdSet) : IdSet := ⟨s.bits ||| t.bits⟩

def inter (s t : IdSet) : IdSet := ⟨s.bits &&& t.bits⟩

instance : Union IdSet := ⟨union⟩
instance : Inter IdSet := ⟨inter⟩

def insert (s : IdSet) (i : Nat) : IdSet := s ∪ singleton i

def ofList (ids : List Nat) : IdSet := ids.foldl insert ∅

def isEmpty (s : IdSet) : Bool := s.bits == 0

/-- Whether every member of `t` is a member of `s`. -/
def includes (s t : IdSet) : Bool := s ∪ t == s

/-- A number above every member. -/
def bound (s : IdSet) : Nat := s.bits.log2 + 1

/-- The places of the set bits among the lowest `1 <<< level` bits, each with `base` added.  The
bits are halved, and a half without set bits is not looked into. -/
def places : Nat → Nat → Nat → List Nat
  | 0, base, bits => if bits.testBit 0 then [base] else []
  | level + 1, base, bits =>
      if bits = 0 then []
      else
        places level base (bits % (1 <<< (1 <<< level)))
          ++ places level (base + (1 <<< level)) (bits >>> (1 <<< level))

/-- The members in ascending order. -/
def toList (s : IdSet) : List Nat := places (s.bound.log2 + 1) 0 s.bits

/-- The number of members. -/
def size (s : IdSet) : Nat := s.toList.length

/-- Whether a set gets more members when those of `t` are added. -/
def growsBy (s t : IdSet) : Bool := (s ∪ t).size != s.size

/-- Sets are ordered by their ascending members, as words are in a dictionary. -/
def compareMembers (s t : IdSet) : Ordering := compare s.toList t.toList

/-! ## Membership -/

theorem contains_eq_testBit (s : IdSet) (i : Nat) : s.contains i = s.bits.testBit i := rfl

theorem mem_iff_contains {s : IdSet} {i : Nat} : i ∈ s ↔ s.contains i = true := Iff.rfl

/-- Sets with the same members are equal. -/
@[ext]
theorem ext {s t : IdSet} (h : ∀ i, i ∈ s ↔ i ∈ t) : s = t := by
  cases s with
  | mk a =>
    cases t with
    | mk b =>
      congr 1
      apply Nat.eq_of_testBit_eq
      intro i
      have := h i
      simp only [mem_iff_contains, contains_eq_testBit] at this
      exact Bool.eq_iff_iff.mpr this

@[simp]
theorem not_mem_empty (i : Nat) : ¬ i ∈ (∅ : IdSet) := by
  simp [mem_iff_contains, contains_eq_testBit, EmptyCollection.emptyCollection, empty]

/-- A union has the members of both sets. -/
@[simp]
theorem mem_union {s t : IdSet} {i : Nat} : i ∈ s ∪ t ↔ i ∈ s ∨ i ∈ t := by
  simp [mem_iff_contains, contains_eq_testBit, Union.union, union]

/-- An intersection has the members that both sets have. -/
@[simp]
theorem mem_inter {s t : IdSet} {i : Nat} : i ∈ s ∩ t ↔ i ∈ s ∧ i ∈ t := by
  simp [mem_iff_contains, contains_eq_testBit, Inter.inter, inter]

@[simp]
theorem mem_singleton {i j : Nat} : j ∈ singleton i ↔ j = i := by
  simp only [mem_iff_contains, contains_eq_testBit, singleton, Nat.one_shiftLeft,
    Nat.testBit_two_pow, decide_eq_true_eq]
  exact eq_comm

/-- A set gets no other member than the one that is inserted. -/
@[simp]
theorem mem_insert {s : IdSet} {i j : Nat} : j ∈ s.insert i ↔ j ∈ s ∨ j = i := by
  simp [insert]

@[simp]
theorem isEmpty_iff {s : IdSet} : s.isEmpty = true ↔ s = ∅ := by
  cases s
  simp [isEmpty, EmptyCollection.emptyCollection, empty]

/-- Inclusion, which is tested on all bits at once, is about the members. -/
@[simp]
theorem includes_iff {s t : IdSet} : s.includes t = true ↔ ∀ i, i ∈ t → i ∈ s := by
  simp only [includes, beq_iff_eq]
  constructor
  · intro h i hi
    rw [← h]
    exact mem_union.mpr (Or.inr hi)
  · intro h
    ext i
    simp only [mem_union, or_iff_left_iff_imp]
    exact h i

/-- The members of a set are below its bound. -/
theorem lt_bound_of_mem {s : IdSet} {i : Nat} (h : i ∈ s) : i < s.bound := by
  have hbit : s.bits.testBit i = true := h
  have hge : 2 ^ i ≤ s.bits := Nat.ge_two_pow_of_testBit hbit
  have hne : s.bits ≠ 0 := by
    have : 0 < 2 ^ i := Nat.two_pow_pos i
    omega
  exact Nat.lt_succ_of_le ((Nat.le_log2 hne).mpr hge)

/-! ## The list of members -/

/-- The places that are found are those of the set bits, counted from `base`. -/
theorem mem_places {level base bits i : Nat} :
    i ∈ places level base bits ↔
      base ≤ i ∧ i < base + (1 <<< level) ∧ bits.testBit (i - base) = true := by
  rw [Nat.one_shiftLeft]
  induction level generalizing base bits with
  | zero =>
    simp only [places]
    split <;> rename_i hbit
    · simp only [List.mem_singleton]
      constructor
      · rintro rfl
        simpa using hbit
      · omega
    · simp only [List.not_mem_nil, false_iff]
      rintro ⟨hlow, hhigh, hi⟩
      have : i - base = 0 := by omega
      exact hbit (this ▸ hi)
  | succ level ih =>
    have hpow : 2 ^ (level + 1) = 2 ^ level + 2 ^ level := by
      rw [Nat.pow_succ]
      omega
    simp only [places, Nat.one_shiftLeft]
    split <;> rename_i hzero
    · simp [hzero]
    · simp only [List.mem_append, ih, Nat.testBit_mod_two_pow, Nat.testBit_shiftRight,
        Bool.and_eq_true, decide_eq_true_eq, hpow]
      constructor
      · rintro (⟨hlow, hhigh, hlt, hi⟩ | ⟨hlow, hhigh, hi⟩)
        · exact ⟨hlow, by omega, hi⟩
        · have : 2 ^ level + (i - (base + 2 ^ level)) = i - base := by omega
          exact ⟨by omega, by omega, this ▸ hi⟩
      · rintro ⟨hlow, hhigh, hi⟩
        by_cases hhalf : i < base + 2 ^ level
        · exact Or.inl ⟨hlow, hhalf, by omega, hi⟩
        · have : 2 ^ level + (i - (base + 2 ^ level)) = i - base := by omega
          exact Or.inr ⟨by omega, by omega, this.symm ▸ hi⟩

/-- Places are found in ascending order. -/
theorem pairwise_places (level base bits : Nat) : (places level base bits).Pairwise (· < ·) := by
  induction level generalizing base bits with
  | zero =>
    simp only [places]
    split <;> simp
  | succ level ih =>
    simp only [places]
    split
    · simp
    · refine List.pairwise_append.mpr ⟨ih _ _, ih _ _, fun i hi j hj => ?_⟩
      have := (mem_places.mp hi).2.1
      have := (mem_places.mp hj).1
      omega

/-- The members that are listed are those of the set. -/
@[simp]
theorem mem_toList {s : IdSet} {i : Nat} : i ∈ s.toList ↔ i ∈ s := by
  simp only [toList, mem_places, Nat.one_shiftLeft, Nat.zero_le, true_and, Nat.zero_add,
    Nat.sub_zero]
  refine ⟨fun h => h.2, fun h => ⟨?_, h⟩⟩
  have hi := lt_bound_of_mem h
  have := @Nat.lt_log2_self s.bound
  omega

/-- Members are listed in ascending order, each of them once. -/
theorem pairwise_toList (s : IdSet) : s.toList.Pairwise (· < ·) := pairwise_places _ _ _

/-- A set that is made from a list has the members of the list. -/
@[simp]
theorem mem_ofList {ids : List Nat} {i : Nat} : i ∈ ofList ids ↔ i ∈ ids := by
  suffices h : ∀ s : IdSet, i ∈ ids.foldl insert s ↔ i ∈ s ∨ i ∈ ids by
    simpa [ofList] using h ∅
  induction ids with
  | nil => simp
  | cons j ids ih => intro s; simp [ih, or_assoc]

end IdSet
end ParserGen
