import Std.Data.TreeMap

/-!
# Tables in the order of insertion

A table is keyed by numbers and runs through its entries in the order in which they were inserted.
The entries are kept a second time in a search tree, so that looking one up does not search a list.
Sorting a table by its keys is an operation of its own.
-/

namespace ParserGen

/-! ## Sorting by key -/

/-- Put an entry before the first one that has no smaller key. -/
def insertByKey {β : Type} (entry : Nat × β) : List (Nat × β) → List (Nat × β)
  | [] => [entry]
  | first :: rest =>
      if entry.1 ≤ first.1 then entry :: first :: rest else first :: insertByKey entry rest

/-- The entries in ascending order of their keys. -/
def sortByKey {β : Type} (entries : List (Nat × β)) : List (Nat × β) :=
  entries.foldr insertByKey []

section Sorting

variable {β : Type}

/-- Nothing but the entry is added. -/
theorem insertByKey_perm (entry : Nat × β) (entries : List (Nat × β)) :
    (insertByKey entry entries).Perm (entry :: entries) := by
  induction entries with
  | nil => exact .refl _
  | cons first rest ih =>
    simp only [insertByKey]
    split
    · exact .refl _
    · exact (ih.cons first).trans (.swap entry first rest)

/-- Sorting keeps the entries. -/
theorem sortByKey_perm (entries : List (Nat × β)) : (sortByKey entries).Perm entries := by
  induction entries with
  | nil => exact .refl _
  | cons entry rest ih => exact (insertByKey_perm entry _).trans (ih.cons entry)

/-- An entry is put where the order of the keys wants it. -/
theorem pairwise_insertByKey {entry : Nat × β} {entries : List (Nat × β)}
    (h : entries.Pairwise (·.1 ≤ ·.1)) : (insertByKey entry entries).Pairwise (·.1 ≤ ·.1) := by
  induction entries with
  | nil => simp [insertByKey]
  | cons first rest ih =>
    obtain ⟨hfirst, hrest⟩ := List.pairwise_cons.mp h
    simp only [insertByKey]
    split
    · rename_i hle
      refine List.pairwise_cons.mpr ⟨fun e he => ?_, h⟩
      rcases List.mem_cons.mp he with rfl | he
      · exact hle
      · exact Nat.le_trans hle (hfirst e he)
    · rename_i hlt
      refine List.pairwise_cons.mpr ⟨fun e he => ?_, ih hrest⟩
      rcases List.mem_cons.mp ((insertByKey_perm entry rest).mem_iff.mp he) with rfl | he
      · omega
      · exact hfirst e he

/-- Sorted entries are in ascending order. -/
theorem pairwise_sortByKey (entries : List (Nat × β)) :
    (sortByKey entries).Pairwise (·.1 ≤ ·.1) := by
  induction entries with
  | nil => exact .nil
  | cons entry rest ih => exact pairwise_insertByKey ih

end Sorting

/-! ## Tables -/

/-- A table from numbers to values; `latest` has its entries, the one inserted last first. -/
structure IndexMap (β : Type) where
  latest : List (Nat × β)
  tree : Std.TreeMap Nat β
  distinct : (latest.map Prod.fst).Nodup
  mem_latest : ∀ k v, (k, v) ∈ latest ↔ tree[k]? = some v

namespace IndexMap

variable {β : Type}

def empty : IndexMap β where
  latest := []
  tree := ∅
  distinct := .nil
  mem_latest := by simp

/-- The table without entries. -/
instance : EmptyCollection (IndexMap β) := ⟨empty⟩

instance : Inhabited (IndexMap β) := ⟨empty⟩

/-- A key is a member of a table if it has a value there. -/
instance : Membership Nat (IndexMap β) where
  mem m k := k ∈ m.tree

/-- Values are looked up in the tree. -/
instance : GetElem? (IndexMap β) Nat β fun m k => k ∈ m where
  getElem m k h := m.tree.get k h
  getElem? m k := m.tree[k]?

def contains (m : IndexMap β) (k : Nat) : Bool := m.tree.contains k

/-- Whether a key has a value is decided by the tree. -/
instance (m : IndexMap β) (k : Nat) : Decidable (k ∈ m) :=
  inferInstanceAs (Decidable (k ∈ m.tree))

def size (m : IndexMap β) : Nat := m.tree.size

/-- The entries in the order of their insertion. -/
def toList (m : IndexMap β) : List (Nat × β) := m.latest.reverse

def keys (m : IndexMap β) : List Nat := m.toList.map Prod.fst

def values (m : IndexMap β) : List β := m.toList.map Prod.snd

/-- The entries after `k` has been given the value `v`. -/
def inserted (m : IndexMap β) (k : Nat) (v : β) : List (Nat × β) :=
  if m.contains k then m.latest.map fun e => (e.1, if e.1 = k then v else e.2)
  else (k, v) :: m.latest

/-- A key that is given a value is still listed once. -/
theorem nodup_inserted (m : IndexMap β) (k : Nat) (v : β) :
    ((m.inserted k v).map Prod.fst).Nodup := by
  rw [inserted]
  split
  · simpa [Function.comp_def] using m.distinct
  · rename_i hnew
    refine List.nodup_cons.mpr ⟨fun hmem => hnew ?_, m.distinct⟩
    obtain ⟨⟨k', v'⟩, hentry, rfl⟩ := List.mem_map.mp hmem
    rw [contains, Std.TreeMap.contains_eq_isSome_getElem?, (m.mem_latest k' v').mp hentry]
    rfl

/-- The entries after an insertion are those of the tree after the insertion. -/
theorem mem_inserted (m : IndexMap β) (k : Nat) (v : β) (k' : Nat) (v' : β) :
    (k', v') ∈ m.inserted k v ↔ (m.tree.insert k v)[k']? = some v' := by
  rw [Std.TreeMap.getElem?_insert, inserted]
  simp only [Nat.compare_eq_eq]
  by_cases hk : k = k'
  · subst hk
    rw [if_pos rfl]
    split
    · rename_i hold
      obtain ⟨old, hrow⟩ :=
        Option.isSome_iff_exists.mp (Std.TreeMap.contains_eq_isSome_getElem?.symm.trans hold)
      have hentry := (m.mem_latest k old).mpr hrow
      simp only [List.mem_map, Prod.mk.injEq, Option.some.injEq]
      constructor
      · rintro ⟨e, _, hkey, hv⟩
        rwa [if_pos hkey] at hv
      · exact fun hv => ⟨(k, old), hentry, rfl, by rw [if_pos rfl, hv]⟩
    · rename_i hnew
      have hnone : m.tree[k]? = none := by
        rw [contains, Std.TreeMap.contains_eq_isSome_getElem?] at hnew
        simpa using hnew
      simp [m.mem_latest, hnone, eq_comm]
  · rw [if_neg hk, ← m.mem_latest]
    split
    · simp only [List.mem_map, Prod.mk.injEq]
      constructor
      · rintro ⟨e, he, rfl, hv⟩
        rw [if_neg (Ne.symm hk)] at hv
        exact hv ▸ he
      · exact fun he => ⟨(k', v'), he, rfl, if_neg (Ne.symm hk)⟩
    · simp [Ne.symm hk]

/-- The value of a key that is there is replaced in its place; a new key comes last. -/
def insert (m : IndexMap β) (k : Nat) (v : β) : IndexMap β where
  latest := m.inserted k v
  tree := m.tree.insert k v
  distinct := m.nodup_inserted k v
  mem_latest := m.mem_inserted k v

/-- Leave an entry out; the others keep their order. -/
def erase (m : IndexMap β) (k : Nat) : IndexMap β where
  latest := m.latest.filter (·.1 ≠ k)
  tree := m.tree.erase k
  distinct := m.distinct.sublist (List.filter_sublist.map _)
  mem_latest := by
    intro k' v'
    rw [List.mem_filter, m.mem_latest, Std.TreeMap.getElem?_erase]
    by_cases hk : k = k'
    · simp [hk]
    · simp [hk, Ne.symm hk]

/-- Put the entries in ascending order of their keys. -/
def sortKeys (m : IndexMap β) : IndexMap β where
  latest := (sortByKey m.toList).reverse
  tree := m.tree
  distinct := by
    have hperm : ((sortByKey m.toList).reverse).Perm m.latest :=
      (List.reverse_perm _).trans ((sortByKey_perm _).trans (List.reverse_perm _))
    exact ((hperm.map Prod.fst).nodup_iff).mpr m.distinct
  mem_latest := by
    intro k v
    rw [List.mem_reverse, (sortByKey_perm _).mem_iff, toList, List.mem_reverse, m.mem_latest]

/-! ## Looking up -/

theorem getElem?_eq (m : IndexMap β) (k : Nat) : m[k]? = m.tree[k]? := rfl

theorem contains_iff_mem {m : IndexMap β} {k : Nat} : m.contains k = true ↔ k ∈ m :=
  Std.TreeMap.contains_iff_mem

theorem isSome_getElem?_iff_mem {m : IndexMap β} {k : Nat} : m[k]?.isSome = true ↔ k ∈ m :=
  Std.TreeMap.isSome_getElem?_iff_mem

theorem contains_eq_isSome_getElem? {m : IndexMap β} {k : Nat} : m.contains k = m[k]?.isSome :=
  Std.TreeMap.contains_eq_isSome_getElem?

@[simp]
theorem getElem?_empty (k : Nat) : (∅ : IndexMap β)[k]? = none :=
  Std.TreeMap.getElem?_emptyc

@[simp]
theorem not_mem_empty (k : Nat) : k ∉ (∅ : IndexMap β) := Std.TreeMap.not_mem_emptyc

/-- A key that is given a value has that value, and other keys keep theirs. -/
@[simp]
theorem getElem?_insert (m : IndexMap β) (k k' : Nat) (v : β) :
    (m.insert k v)[k']? = if k = k' then some v else m[k']? := by
  rw [getElem?_eq, insert, Std.TreeMap.getElem?_insert]
  simp only [Nat.compare_eq_eq]
  rfl

/-- What is there after an insertion is new, or it was there before. -/
theorem of_getElem?_insert {m : IndexMap β} {k k' : Nat} {v v' : β}
    (h : (m.insert k v)[k']? = some v') : k' = k ∧ v' = v ∨ m[k']? = some v' := by
  rw [getElem?_insert] at h
  split at h
  · rename_i hk
    exact Or.inl ⟨hk.symm, (Option.some.inj h).symm⟩
  · exact Or.inr h

/-- What holds of the entries of a table and of one that is inserted holds of all after that. -/
theorem forall_getElem?_insert {P : Nat → β → Prop} {m : IndexMap β} {k : Nat} {v : β}
    (hold : ∀ {k' : Nat} {v' : β}, m[k']? = some v' → P k' v') (hnew : P k v) {k' : Nat} {v' : β}
    (h : (m.insert k v)[k']? = some v') : P k' v' := by
  rcases of_getElem?_insert h with ⟨rfl, rfl⟩ | h
  · exact hnew
  · exact hold h

@[simp]
theorem mem_insert {m : IndexMap β} {k k' : Nat} {v : β} : k' ∈ m.insert k v ↔ k = k' ∨ k' ∈ m := by
  rw [← isSome_getElem?_iff_mem, getElem?_insert, ← isSome_getElem?_iff_mem]
  split <;> simp [*]

/-- An entry that is left out cannot be looked up any more; the others can. -/
theorem getElem?_erase (m : IndexMap β) (k k' : Nat) :
    (m.erase k)[k']? = if k = k' then none else m[k']? := by
  rw [getElem?_eq, erase, Std.TreeMap.getElem?_erase]
  simp only [Nat.compare_eq_eq]
  rfl

/-- Sorting changes no value. -/
@[simp]
theorem getElem?_sortKeys (m : IndexMap β) (k : Nat) : m.sortKeys[k]? = m[k]? := rfl

/-! ## The order of the entries -/

/-- The entries are what can be looked up. -/
theorem mem_toList_iff {m : IndexMap β} {k : Nat} {v : β} : (k, v) ∈ m.toList ↔ m[k]? = some v := by
  rw [toList, List.mem_reverse, m.mem_latest, getElem?_eq]

/-- The keys that are listed are those that have values. -/
theorem mem_keys {m : IndexMap β} {k : Nat} : k ∈ m.keys ↔ k ∈ m := by
  rw [keys, List.mem_map, ← isSome_getElem?_iff_mem, Option.isSome_iff_exists]
  constructor
  · rintro ⟨⟨k', v⟩, hentry, rfl⟩
    exact ⟨v, mem_toList_iff.mp hentry⟩
  · rintro ⟨v, hrow⟩
    exact ⟨(k, v), mem_toList_iff.mpr hrow, rfl⟩

/-- No key is listed twice. -/
theorem nodup_keys (m : IndexMap β) : m.keys.Nodup := by
  rw [keys, toList, List.map_reverse]
  exact (List.reverse_perm _).nodup_iff.mpr m.distinct

/-- The values that are listed are those that can be looked up. -/
theorem mem_values {m : IndexMap β} {v : β} : v ∈ m.values ↔ ∃ k : Nat, m[k]? = some v := by
  rw [values, List.mem_map]
  constructor
  · rintro ⟨⟨k, v'⟩, hentry, rfl⟩
    exact ⟨k, mem_toList_iff.mp hentry⟩
  · rintro ⟨k, hrow⟩
    exact ⟨(k, v), mem_toList_iff.mpr hrow, rfl⟩

/-- There are as many entries in the list as in the tree. -/
theorem length_toList (m : IndexMap β) : m.toList.length = m.size := by
  have hkeys : m.keys.length = m.toList.length := List.length_map _
  have htree : m.tree.keys.length = m.size := Std.TreeMap.length_keys
  rw [← hkeys, ← htree]
  refine Nat.le_antisymm (m.nodup_keys.length_le_of_subset fun k hk => ?_)
    (Std.TreeMap.nodup_keys.length_le_of_subset fun k hk => ?_)
  · exact Std.TreeMap.mem_keys.mpr (mem_keys.mp hk)
  · exact mem_keys.mpr (Std.TreeMap.mem_keys.mp hk)

/-- There are as many keys as entries. -/
theorem length_keys (m : IndexMap β) : m.keys.length = m.size := by
  rw [keys, List.length_map, length_toList]

theorem length_values (m : IndexMap β) : m.values.length = m.size := by
  rw [values, List.length_map, length_toList]

@[simp]
theorem toList_empty : (∅ : IndexMap β).toList = [] := rfl

/-- A new entry comes last. -/
theorem toList_insert_of_not_mem {m : IndexMap β} {k : Nat} (h : k ∉ m) (v : β) :
    (m.insert k v).toList = m.toList ++ [(k, v)] := by
  have hnew : m.contains k ≠ true := fun hold => h (contains_iff_mem.mp hold)
  show (m.inserted k v).reverse = _
  rw [inserted, if_neg hnew, List.reverse_cons, toList]

/-- There is one entry more at most. -/
theorem size_insert_le (m : IndexMap β) (k : Nat) (v : β) : (m.insert k v).size ≤ m.size + 1 :=
  Std.TreeMap.size_insert_le

/-- Sorting a table sorts its entries. -/
theorem toList_sortKeys (m : IndexMap β) : m.sortKeys.toList = sortByKey m.toList := by
  rw [toList, sortKeys, List.reverse_reverse]

/-- Sorting puts the keys in ascending order, whatever the order of insertion was. -/
theorem pairwise_keys_sortKeys (m : IndexMap β) : m.sortKeys.keys.Pairwise (· < ·) := by
  have hle : m.sortKeys.keys.Pairwise (· ≤ ·) := by
    rw [keys, toList_sortKeys]
    exact List.pairwise_map.mpr (pairwise_sortByKey _)
  exact (hle.and m.sortKeys.nodup_keys).imp fun ⟨hle, hne⟩ => Nat.lt_of_le_of_ne hle hne

/-- Entries with ascending keys that are those of a table are its sorted entries. -/
theorem toList_sortKeys_of_perm {m : IndexMap β} {entries : List (Nat × β)}
    (hperm : entries.Perm m.toList) (hsorted : entries.Pairwise (·.1 < ·.1)) :
    m.sortKeys.toList = entries := by
  have hkeys : m.sortKeys.toList.Pairwise (·.1 < ·.1) :=
    List.pairwise_map.mp m.pairwise_keys_sortKeys
  refine List.Perm.eq_of_pairwise (fun a b _ _ hlt hgt => absurd hlt (Nat.lt_asymm hgt)) hkeys
    hsorted ?_
  rw [toList_sortKeys]
  exact (sortByKey_perm _).trans hperm.symm

end IndexMap
end ParserGen
