import Std.Data.TreeSet

/-!
# Work queues

A first-in first-out queue that ignores a value which is already waiting in it.  The waiting
values are kept a second time as a set, so that asking for one does not search the queue.

Main results:

- Theorem `WorkQueue.Valid.add`: adding keeps the set of waiting values in step with the list.
- Theorem `WorkQueue.Valid.pop`: popping takes the oldest value, which then no longer waits.
-/

namespace ParserGen

/-- The values that wait, oldest first: those of `front`, then those of `back` reversed. -/
structure WorkQueue (α : Type) [Ord α] where
  front : List α
  back : List α
  waiting : Std.TreeSet α

namespace WorkQueue

variable {α : Type} [Ord α]

def empty : WorkQueue α := ⟨[], [], ∅⟩

instance : Inhabited (WorkQueue α) := ⟨empty⟩

/-- The waiting values, oldest first. -/
def toList (q : WorkQueue α) : List α := q.front ++ q.back.reverse

def size (q : WorkQueue α) : Nat := q.front.length + q.back.length

def isEmpty (q : WorkQueue α) : Bool := q.size == 0

/-- Append `a` unless it is waiting already, and tell whether it was appended. -/
def push (q : WorkQueue α) (a : α) : Bool × WorkQueue α :=
  if q.waiting.contains a then (false, q)
  else (true, { q with back := a :: q.back, waiting := q.waiting.insert a })

/-- Append `a` unless it is waiting already. -/
def add (q : WorkQueue α) (a : α) : WorkQueue α := (q.push a).2

/-- The oldest value and the queue without it. -/
def pop? (q : WorkQueue α) : Option (α × WorkQueue α) :=
  match q.front with
  | a :: front => some (a, { q with front := front, waiting := q.waiting.erase a })
  | [] =>
      match q.back.reverse with
      | a :: front => some (a, { front := front, back := [], waiting := q.waiting.erase a })
      | [] => none

def ofList (values : List α) : WorkQueue α := values.foldl add empty

/-! ## The queue as a list -/

@[simp]
theorem toList_empty : (empty : WorkQueue α).toList = [] := rfl

/-- The queue is as long as its two parts together. -/
@[simp]
theorem length_toList (q : WorkQueue α) : q.toList.length = q.size := by
  simp [toList, size]

/-- A value is appended unless it is waiting. -/
theorem toList_push (q : WorkQueue α) (a : α) :
    (q.push a).2.toList = if q.waiting.contains a then q.toList else q.toList ++ [a] := by
  simp only [push]
  split <;> simp [toList]

/-- Popping takes the first value of the list. -/
theorem toList_pop? (q : WorkQueue α) :
    q.pop?.map (fun r => r.1 :: r.2.toList) = if q.toList = [] then none else some q.toList := by
  simp only [pop?]
  split
  · simp_all [toList]
  · split <;> simp_all [toList]

@[simp]
theorem ofList_nil : ofList ([] : List α) = empty := rfl

/-- A list is put into a queue value by value. -/
theorem ofList_concat (values : List α) (a : α) :
    ofList (values ++ [a]) = (ofList values).add a := by
  simp [ofList]

/-! ## Popping -/

/-- Only an empty queue has nothing to give. -/
theorem toList_eq_nil_of_pop? {q : WorkQueue α} (hpop : q.pop? = none) : q.toList = [] := by
  have hlist := toList_pop? q
  rw [hpop] at hlist
  split at hlist
  · assumption
  · cases hlist

/-- An empty queue has nothing to give. -/
theorem pop?_eq_none {q : WorkQueue α} (hempty : q.toList = []) : q.pop? = none := by
  have hlist := toList_pop? q
  rw [if_pos hempty] at hlist
  exact Option.map_eq_none_iff.mp hlist

/-- The value that is given is the one that has waited longest. -/
theorem toList_of_pop? {q rest : WorkQueue α} {a : α} (hpop : q.pop? = some (a, rest)) :
    q.toList = a :: rest.toList := by
  have hlist := toList_pop? q
  rw [hpop] at hlist
  split at hlist
  · simp at hlist
  · exact (Option.some.inj hlist).symm

/-- Popping takes one value. -/
theorem size_of_pop? {q rest : WorkQueue α} {a : α} (hpop : q.pop? = some (a, rest)) :
    q.size = rest.size + 1 := by
  rw [← length_toList, ← length_toList, toList_of_pop? hpop, List.length_cons]

/-- The value that is given does not wait any more. -/
theorem waiting_of_pop? {q rest : WorkQueue α} {a : α} (hpop : q.pop? = some (a, rest)) :
    rest.waiting = q.waiting.erase a := by
  unfold pop? at hpop
  split at hpop
  · cases hpop
    rfl
  · split at hpop
    · cases hpop
      rfl
    · cases hpop

/-! ## Valid queues -/

/-- The set holds the values that wait, each of which waits once. -/
structure Valid (q : WorkQueue α) : Prop where
  contains_iff : ∀ a, q.waiting.contains a = true ↔ a ∈ q.toList
  nodup : q.toList.Nodup

theorem valid_empty : (empty : WorkQueue α).Valid where
  contains_iff a := by simp [empty, toList]
  nodup := List.nodup_nil

/-- The value that is given was waiting once only. -/
theorem Valid.nodup_of_pop? {q rest : WorkQueue α} (h : q.Valid) {a : α}
    (hpop : q.pop? = some (a, rest)) : (a :: rest.toList).Nodup :=
  toList_of_pop? hpop ▸ h.nodup

/-- A value that is waiting is not added again. -/
theorem Valid.add_of_mem {q : WorkQueue α} (h : q.Valid) {a : α} (ha : a ∈ q.toList) :
    q.add a = q := by
  have hwaiting := (h.contains_iff a).mpr ha
  simp only [add, push, if_pos hwaiting]

/-- A value that is not waiting is added at the end. -/
theorem Valid.toList_add_of_not_mem {q : WorkQueue α} (h : q.Valid) {a : α} (ha : a ∉ q.toList) :
    (q.add a).toList = q.toList ++ [a] := by
  rw [add, toList_push, if_neg (mt (h.contains_iff a).mp ha)]

/-- The values that wait are the old ones and the one that is added. -/
theorem Valid.mem_add {q : WorkQueue α} (h : q.Valid) {a b : α} :
    b ∈ (q.add a).toList ↔ b ∈ q.toList ∨ b = a := by
  by_cases ha : a ∈ q.toList
  · rw [h.add_of_mem ha]
    refine ⟨Or.inl, ?_⟩
    rintro (hb | rfl)
    · exact hb
    · exact ha
  · rw [h.toList_add_of_not_mem ha]
    simp

variable [Std.TransOrd α] [Std.LawfulEqOrd α]

/-- Adding a value keeps the queue valid. -/
theorem Valid.add {q : WorkQueue α} (h : q.Valid) (a : α) : (q.add a).Valid := by
  by_cases ha : a ∈ q.toList
  · rw [h.add_of_mem ha]
    exact h
  · have hlist := h.toList_add_of_not_mem ha
    have hwaiting := mt (h.contains_iff a).mp ha
    constructor
    · intro b
      rw [hlist, List.mem_append, List.mem_singleton, ← h.contains_iff b]
      simp only [WorkQueue.add, push, if_neg hwaiting, Std.TreeSet.contains_insert,
        Bool.or_eq_true, beq_iff_eq, Std.LawfulEqOrd.compare_eq_iff_eq]
      exact or_comm.trans (or_congr Iff.rfl eq_comm)
    · rw [hlist]
      refine List.nodup_append.mpr ⟨h.nodup, by simp, fun b hb c hc => ?_⟩
      obtain rfl := List.mem_singleton.mp hc
      exact fun hsame => ha (hsame ▸ hb)

/-- Popping keeps the queue valid. -/
theorem Valid.pop {q rest : WorkQueue α} (h : q.Valid) {a : α}
    (hpop : q.pop? = some (a, rest)) : rest.Valid := by
  obtain ⟨hout, hnodup⟩ := List.nodup_cons.mp (h.nodup_of_pop? hpop)
  refine ⟨fun b => ?_, hnodup⟩
  rw [waiting_of_pop? hpop, Std.TreeSet.contains_iff_mem, Std.TreeSet.mem_erase,
    ← Std.TreeSet.contains_iff_mem, h.contains_iff, toList_of_pop? hpop, List.mem_cons, ne_eq,
    Std.LawfulEqOrd.compare_eq_iff_eq]
  constructor
  · rintro ⟨hne, rfl | hb⟩
    · exact absurd rfl hne
    · exact hb
  · intro hb
    refine ⟨?_, Or.inr hb⟩
    rintro rfl
    exact hout hb

end WorkQueue
end ParserGen
