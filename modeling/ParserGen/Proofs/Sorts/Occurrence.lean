import ParserGen.Proofs.Sorts.Models

/-!
# The occurs check

The depth-first search for a part of a sort meets every representative that the operands of its
start lead to, and no other.  It compresses paths while it goes, which changes neither
representatives nor operands, so that what it does can be told from the arena that it starts with.

Main results:

- Theorem `PartSearch.look_spec`: what looking at operands in turn does to a search.
- Theorem `SortArena.WellFormed.occurs_spec`: the search finds a representative if and only if it is
  a proper part.
-/

namespace ParserGen
namespace SortArena

variable {a b : SortArena} {target root : Nat}

theorem mem_operands {v r : Nat} :
    v ∈ (a.operands? r).getD [] ↔
      ∃ operands, a.cells[r]? = some (.arrow operands) ∧ v ∈ operands := by
  unfold operands?
  split
  · rename_i operands hcell
    simp [hcell]
  · rename_i hcell
    simp only [Option.getD_none, List.not_mem_nil, false_iff]
    rintro ⟨operands, harrow, _⟩
    exact hcell operands harrow

namespace PartSearch

/-- How many representatives a search may still look at: those on the stack and those that it has
not met. -/
def budget (size : Nat) (search : PartSearch) : Nat :=
  ((Finset.range size).filter (· ∉ search.visited)).card + search.stack.length

/-- A representative that is met for the first time goes on the stack. -/
theorem budget_push {size r : Nat} {visited : IdSet} {stack : List Nat} (hr : r < size)
    (hnew : r ∉ visited) :
    budget size ⟨b, visited.insert r, r :: stack⟩ = budget size ⟨a, visited, stack⟩ := by
  have herase : (Finset.range size).filter (· ∉ visited.insert r) =
      ((Finset.range size).filter (· ∉ visited)).erase r := by
    ext v
    simp only [Finset.mem_filter, Finset.mem_erase, IdSet.mem_insert, not_or]
    tauto
  have hmem : r ∈ (Finset.range size).filter (· ∉ visited) :=
    Finset.mem_filter.mpr ⟨Finset.mem_range.mpr hr, hnew⟩
  have hpos := Finset.card_pos.mpr ⟨r, hmem⟩
  simp only [budget, herase, Finset.card_erase_of_mem hmem, List.length_cons]
  omega

/-- A search that may look at nothing has come to its end. -/
theorem stack_eq_nil {size : Nat} {search : PartSearch} (hbudget : search.budget size ≤ 0) :
    search.stack = [] := by
  have hzero := Nat.le_zero.mp hbudget
  rw [budget, Nat.add_eq_zero_iff] at hzero
  exact List.eq_nil_of_length_eq_zero hzero.2

/-- What a search has become when it has looked at operands without finding its target. -/
structure Looked (a : SortArena) (target : Nat) (operands : List Nat) (before after : PartSearch) :
    Prop where
  compressed : Compressed a after.arena
  avoided : ∀ v ∈ operands, ¬ a.Represents v target
  visited : ∀ r, r ∈ after.visited ↔ r ∈ before.visited ∨ ∃ v ∈ operands, a.Represents v r
  stack : ∀ r, r ∈ after.stack ↔ r ∈ before.stack ∨ r ∈ after.visited ∧ r ∉ before.visited
  budget : after.budget a.cells.size = before.budget a.cells.size

variable {operands stack : List Nat} {visited : IdSet} {after : PartSearch} {v r : Nat}

theorem exists_represents_cons (hr : a.Represents v r) (s : Nat) :
    (∃ w ∈ v :: operands, a.Represents w s) ↔ s = r ∨ ∃ w ∈ operands, a.Represents w s := by
  simp only [List.mem_cons, exists_eq_or_imp]
  refine or_congr ⟨fun hs => hs.unique hr, ?_⟩ Iff.rfl
  rintro rfl
  exact hr

theorem not_represents_cons (hr : a.Represents v r) (hne : r ≠ target)
    (havoided : ∀ w ∈ operands, ¬ a.Represents w target) :
    ∀ w ∈ v :: operands, ¬ a.Represents w target := by
  intro w hw htarget
  rcases List.mem_cons.mp hw with rfl | hw
  · exact hne (hr.unique htarget)
  · exact havoided w hw htarget

/-- An operand whose representative was met before adds nothing. -/
theorem Looked.cons_met (hr : a.Represents v r) (hne : r ≠ target) (hmet : r ∈ visited)
    (h : Looked a target operands ⟨b, visited, stack⟩ after) (b' : SortArena) :
    Looked a target (v :: operands) ⟨b', visited, stack⟩ after := by
  refine ⟨h.compressed, not_represents_cons hr hne h.avoided, fun s => ?_, h.stack, h.budget⟩
  rw [h.visited, exists_represents_cons hr]
  constructor
  · exact Or.imp_right Or.inr
  · rintro (hs | rfl | hs)
    · exact Or.inl hs
    · exact Or.inl hmet
    · exact Or.inr hs

/-- An operand whose representative is new puts it on the stack. -/
theorem Looked.cons_new (hr : a.Represents v r) (hne : r ≠ target) (hlt : r < a.cells.size)
    (hnew : r ∉ visited)
    (h : Looked a target operands ⟨b, visited.insert r, r :: stack⟩ after) (b' : SortArena) :
    Looked a target (v :: operands) ⟨b', visited, stack⟩ after := by
  have hvisited : ∀ s, s ∈ after.visited ↔
      (s ∈ visited ∨ s = r) ∨ ∃ w ∈ operands, a.Represents w s := by
    intro s
    rw [h.visited, IdSet.mem_insert]
  refine ⟨h.compressed, not_represents_cons hr hne h.avoided, fun s => ?_, fun s => ?_, ?_⟩
  · rw [hvisited, exists_represents_cons hr, or_assoc]
  · rw [h.stack, List.mem_cons, IdSet.mem_insert, not_or]
    have hmem : r ∈ after.visited := (hvisited r).mpr (Or.inl (Or.inr rfl))
    constructor
    · rintro ((rfl | hs) | ⟨hs, hold, _⟩)
      · exact Or.inr ⟨hmem, hnew⟩
      · exact Or.inl hs
      · exact Or.inr ⟨hs, hold⟩
    · rintro (hs | ⟨hs, hold⟩)
      · exact Or.inl (Or.inr hs)
      · by_cases hsame : s = r
        · exact Or.inl (Or.inl hsame)
        · exact Or.inr ⟨hs, hold, hsame⟩
  · rw [h.budget, budget_push hlt hnew]

/-- Operands are looked at in turn until the target is found. -/
theorem look_spec (target : Nat) (h : a.WellFormed) (hlt : ∀ v ∈ operands, v < a.cells.size)
    (search : PartSearch) (hsearch : Compressed a search.arena) :
    ((look target operands search).1 = true →
        Compressed a (look target operands search).2.arena ∧
          ∃ v ∈ operands, a.Represents v target) ∧
      ((look target operands search).1 = false →
        Looked a target operands search (look target operands search).2) := by
  induction operands generalizing search with
  | nil =>
    refine ⟨nofun, fun _ => ⟨hsearch, nofun, ?_, ?_, rfl⟩⟩
    · simp [look]
    · simp [look]
  | cons v operands ih =>
    obtain ⟨b, visited, stack⟩ := search
    have hrest : ∀ w ∈ operands, w < a.cells.size := fun w hw => hlt w (List.mem_cons_of_mem _ hw)
    obtain ⟨hr, hfound⟩ := (hsearch.wellFormed h).find_spec v
    rw [hsearch.represents_iff h] at hr
    have hnext := hsearch.trans hfound
    have hrlt := h.lt_of_represents (hlt v List.mem_cons_self) hr
    have hfind : look target (v :: operands) ⟨b, visited, stack⟩ =
        if (b.find v).1 = target then (true, ⟨(b.find v).2, visited, stack⟩)
        else if visited.contains (b.find v).1 then
          look target operands ⟨(b.find v).2, visited, stack⟩
        else look target operands
          ⟨(b.find v).2, visited.insert (b.find v).1, (b.find v).1 :: stack⟩ := rfl
    rw [hfind]
    by_cases htarget : (b.find v).1 = target
    · rw [if_pos htarget]
      exact ⟨fun _ => ⟨hnext, v, List.mem_cons_self, htarget ▸ hr⟩, nofun⟩
    · rw [if_neg htarget]
      by_cases hmet : visited.contains (b.find v).1 = true
      · rw [if_pos hmet]
        obtain ⟨hyes, hno⟩ := ih hrest ⟨(b.find v).2, visited, stack⟩ hnext
        refine ⟨fun hanswer => ?_, fun hanswer => (hno hanswer).cons_met hr htarget hmet b⟩
        obtain ⟨hcompressed, w, hw, hreps⟩ := hyes hanswer
        exact ⟨hcompressed, w, List.mem_cons_of_mem _ hw, hreps⟩
      · rw [if_neg hmet]
        obtain ⟨hyes, hno⟩ :=
          ih hrest ⟨(b.find v).2, visited.insert (b.find v).1, (b.find v).1 :: stack⟩ hnext
        refine ⟨fun hanswer => ?_, fun hanswer => (hno hanswer).cons_new hr htarget hrlt hmet b⟩
        obtain ⟨hcompressed, w, hw, hreps⟩ := hyes hanswer
        exact ⟨hcompressed, w, List.mem_cons_of_mem _ hw, hreps⟩

/-- A search for `target` among the proper parts of `root` that is under way. -/
structure Underway (a : SortArena) (target root : Nat) (search : PartSearch) : Prop where
  compressed : Compressed a search.arena
  reached : ∀ r ∈ search.stack, Relation.ReflTransGen a.Child root r
  avoided : target ∉ search.visited
  closed : ∀ r, r = root ∨ r ∈ search.visited →
    r ∈ search.stack ∨ ∀ s, a.Child r s → s ∈ search.visited

/-- A search starts with the representative itself on the stack. -/
theorem Underway.initial (a : SortArena) (target root : Nat) :
    Underway a target root ⟨a, ∅, [root]⟩ := by
  refine ⟨.refl a, fun r hr => ?_, IdSet.not_mem_empty target, fun r hr => ?_⟩
  · rw [List.mem_singleton.mp hr]
  · rcases hr with rfl | hr
    · exact Or.inl List.mem_cons_self
    · exact absurd hr (IdSet.not_mem_empty r)

theorem budget_initial (a : SortArena) (root : Nat) :
    budget a.cells.size ⟨a, ∅, [root]⟩ ≤ a.cells.size + 1 := by
  simp [budget]

/-- When nothing is left on the stack, the target is not a part. -/
theorem Underway.not_part (h : Underway a target root ⟨b, visited, []⟩) :
    ¬ Relation.TransGen a.Child root target := by
  have hclosed : ∀ {r s}, r = root ∨ r ∈ visited → a.Child r s → s ∈ visited := by
    intro r s hr hchild
    rcases h.closed r hr with hstack | hall
    · cases hstack
    · exact hall s hchild
  intro hpart
  have hvisited : target ∈ visited := by
    clear h
    induction hpart with
    | single hchild => exact hclosed (Or.inl rfl) hchild
    | tail _ hchild ih => exact hclosed (Or.inr ih) hchild
  exact h.avoided hvisited

/-- A representative that is taken from the stack is done with once its operands are looked at. -/
theorem Underway.next (h : Underway a target root ⟨b, visited, r :: stack⟩)
    (hlooked : Looked a target ((a.operands? r).getD []) ⟨b, visited, stack⟩ after) :
    Underway a target root after := by
  have hchild : ∀ s, (∃ v ∈ (a.operands? r).getD [], a.Represents v s) ↔ a.Child r s := by
    intro s
    simp only [mem_operands]
    constructor
    · rintro ⟨v, ⟨operands, hcell, hv⟩, hs⟩
      exact ⟨operands, v, hcell, hv, hs⟩
    · rintro ⟨operands, v, hcell, hv, hs⟩
      exact ⟨v, ⟨operands, hcell, hv⟩, hs⟩
  have hvisited : ∀ s, s ∈ after.visited ↔ s ∈ visited ∨ a.Child r s := by
    intro s
    rw [hlooked.visited, hchild]
  refine ⟨hlooked.compressed, fun s hs => ?_, fun htarget => ?_, fun s hs => ?_⟩
  · rcases (hlooked.stack s).mp hs with hold | ⟨hmet, hnew⟩
    · exact h.reached s (List.mem_cons_of_mem _ hold)
    · rcases (hvisited s).mp hmet with hold | hrs
      · exact absurd hold hnew
      · exact (h.reached r List.mem_cons_self).tail hrs
  · rcases (hvisited target).mp htarget with hold | hrtarget
    · exact h.avoided hold
    · obtain ⟨v, hv, hrep⟩ := (hchild target).mpr hrtarget
      exact hlooked.avoided v hv hrep
  · by_cases hold : s = root ∨ s ∈ visited
    · rcases h.closed s hold with hstack | hall
      · rcases List.mem_cons.mp hstack with rfl | hstack
        · exact Or.inr fun u hu => (hvisited u).mpr (Or.inr hu)
        · exact Or.inl ((hlooked.stack s).mpr (Or.inl hstack))
      · exact Or.inr fun u hu => (hvisited u).mpr (Or.inl (hall u hu))
    · rw [not_or] at hold
      have hmet := hs.resolve_left hold.1
      exact Or.inl ((hlooked.stack s).mpr (Or.inr ⟨hmet, hold.2⟩))

/-- One turn of a search: the target is among the operands of the representative that is taken from
the stack, or the search goes on with less to look at. -/
theorem Underway.turn (h : a.WellFormed)
    (hsearch : Underway a target root ⟨b, visited, r :: stack⟩) :
    ((look target ((b.operands? r).getD []) ⟨b, visited, stack⟩).1 = true →
        Compressed a (look target ((b.operands? r).getD []) ⟨b, visited, stack⟩).2.arena ∧
          Relation.TransGen a.Child root target) ∧
      ((look target ((b.operands? r).getD []) ⟨b, visited, stack⟩).1 = false →
        Underway a target root (look target ((b.operands? r).getD []) ⟨b, visited, stack⟩).2 ∧
          (look target ((b.operands? r).getD []) ⟨b, visited, stack⟩).2.budget a.cells.size <
            budget a.cells.size ⟨b, visited, r :: stack⟩) := by
  have hlt : ∀ v ∈ (a.operands? r).getD [], v < a.cells.size := by
    intro v hv
    obtain ⟨operands, hcell, hv⟩ := mem_operands.mp hv
    exact h.lt_size (Or.inr ⟨operands, hcell, hv⟩)
  rw [hsearch.compressed.operands?_eq r]
  obtain ⟨hyes, hno⟩ := look_spec target h hlt ⟨b, visited, stack⟩ hsearch.compressed
  constructor
  · intro hfound
    obtain ⟨hcompressed, v, hv, hrep⟩ := hyes hfound
    obtain ⟨operands, hcell, hv⟩ := mem_operands.mp hv
    exact ⟨hcompressed,
      .tail' (hsearch.reached r List.mem_cons_self) ⟨operands, v, hcell, hv, hrep⟩⟩
  · intro hmissed
    have hlooked := hno hmissed
    refine ⟨hsearch.next hlooked, ?_⟩
    rw [hlooked.budget, budget, budget, List.length_cons]
    exact Nat.lt_succ_self _

/-- A search that may look at enough representatives finds out whether the target is a part. -/
theorem run_spec (h : a.WellFormed) {steps : Nat} (search : PartSearch)
    (hsearch : Underway a target root search) (hbudget : search.budget a.cells.size ≤ steps) :
    Compressed a (run target steps search).2 ∧
      ((run target steps search).1 = true ↔ Relation.TransGen a.Child root target) := by
  induction steps generalizing search with
  | zero =>
    obtain ⟨b, visited, stack⟩ := search
    obtain rfl : stack = [] := stack_eq_nil hbudget
    exact ⟨hsearch.compressed, iff_of_false Bool.false_ne_true hsearch.not_part⟩
  | succ steps ih =>
    obtain ⟨b, visited, stack⟩ := search
    cases stack with
    | nil => exact ⟨hsearch.compressed, iff_of_false Bool.false_ne_true hsearch.not_part⟩
    | cons r stack =>
      obtain ⟨hyes, hno⟩ := hsearch.turn h
      simp only [run]
      generalize look target ((b.operands? r).getD []) ⟨b, visited, stack⟩ = answer at hyes hno
      obtain ⟨found, after⟩ := answer
      cases found with
      | true =>
        obtain ⟨hcompressed, hpart⟩ := hyes rfl
        exact ⟨hcompressed, iff_of_true rfl hpart⟩
      | false =>
        obtain ⟨hafter, hless⟩ := hno rfl
        exact ih after hafter (Nat.le_of_lt_succ (hless.trans_le hbudget))

end PartSearch

/-- The occurs check finds the proper parts of a sort, and only compresses paths. -/
theorem WellFormed.occurs_spec (h : a.WellFormed) (target root : Nat) :
    Compressed a (a.occurs target root).2 ∧
      ((a.occurs target root).1 = true ↔ Relation.TransGen a.Child root target) :=
  PartSearch.run_spec h _ (.initial a target root) (PartSearch.budget_initial a root)

/-- Neither of two representatives is a proper part of the other one, or the check says so. -/
theorem WellFormed.occursEither_spec (h : a.WellFormed) (r s : Nat) :
    Compressed a (a.occursEither r s).2 ∧
      ((a.occursEither r s).1 = true ↔
        Relation.TransGen a.Child s r ∨ Relation.TransGen a.Child r s) := by
  obtain ⟨hcompressed, hanswer⟩ := h.occurs_spec r s
  unfold occursEither
  generalize a.occurs r s = answer at hcompressed hanswer
  obtain ⟨found, b⟩ := answer
  cases found with
  | true => exact ⟨hcompressed, iff_of_true rfl (Or.inl (hanswer.mp rfl))⟩
  | false =>
    have hnot : ¬ Relation.TransGen a.Child s r := fun hpart => nomatch hanswer.mpr hpart
    obtain ⟨hcompressed', hanswer'⟩ := (hcompressed.wellFormed h).occurs_spec s r
    rw [hcompressed.child_eq h] at hanswer'
    exact ⟨hcompressed.trans hcompressed', by rw [hanswer', or_iff_right hnot]⟩

end SortArena
end ParserGen
