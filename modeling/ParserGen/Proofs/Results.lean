import Mathlib.Data.List.Forall2

/-!
# Results and lookups

Computations that may fail are taken apart at their steps, and tables without repeated keys are read
row by row.
-/

namespace ParserGen

/-- A computation that succeeds has succeeded in its first step. -/
theorem exists_of_bind_eq_ok {ε α β : Type} {x : Except ε α} {f : α → Except ε β} {b : β}
    (h : x >>= f = .ok b) : ∃ a, x = .ok a ∧ f a = .ok b := by
  cases x with
  | error e => cases h
  | ok a => exact ⟨a, rfl, h⟩

/-- A computation goes on with the result of its first step. -/
theorem bind_of_eq_ok {ε α β : Type} {x : Except ε α} {a : α} (hx : x = .ok a)
    (f : α → Except ε β) : x >>= f = f a := by
  rw [hx]
  rfl

/-- A computation succeeds if its first step does, and so does the rest. -/
theorem bind_eq_ok {ε α β : Type} {x : Except ε α} {f : α → Except ε β} {a : α} {b : β}
    (hx : x = .ok a) (hf : f a = .ok b) : x >>= f = .ok b :=
  (bind_of_eq_ok hx f).trans hf

/-- A computation fails if its first step does. -/
theorem bind_of_eq_error {ε α β : Type} {x : Except ε α} {e : ε} (hx : x = .error e)
    (f : α → Except ε β) : x >>= f = .error e := by
  rw [hx]
  rfl

/-- A computation fails, if it fails at all, with errors of a certain kind. -/
def FailsOnly {ε α : Type} (P : ε → Prop) (x : Except ε α) : Prop := ∀ e, x = .error e → P e

theorem failsOnly_ok {ε α : Type} {P : ε → Prop} (a : α) : FailsOnly P (.ok a : Except ε α) :=
  fun _ h => by cases h

theorem failsOnly_error {ε α : Type} {P : ε → Prop} {e : ε} (he : P e) :
    FailsOnly P (.error e : Except ε α) := by
  rintro _ ⟨⟩
  exact he

/-- A computation fails in its first step or in the rest. -/
theorem FailsOnly.bind {ε α β : Type} {P : ε → Prop} {x : Except ε α} {f : α → Except ε β}
    (hx : FailsOnly P x) (hf : ∀ a, x = .ok a → FailsOnly P (f a)) : FailsOnly P (x >>= f) := by
  cases x with
  | error e => exact failsOnly_error (hx e rfl)
  | ok a => exact hf a rfl

/-- A computation over a list fails in one of its steps, and these keep what they rely on. -/
theorem FailsOnly.foldlM {ε α β : Type} {P : ε → Prop} {Q : β → Prop}
    {f : β → α → Except ε β} {l : List α} {b : β} (hb : Q b)
    (hf : ∀ a ∈ l, ∀ b, Q b → FailsOnly P (f b a) ∧ ∀ b', f b a = .ok b' → Q b') :
    FailsOnly P (l.foldlM f b) := by
  induction l generalizing b with
  | nil => exact failsOnly_ok b
  | cons a l ih =>
    obtain ⟨hfails, hkeeps⟩ := hf a List.mem_cons_self b hb
    rw [List.foldlM_cons]
    refine hfails.bind fun b' hb' => ih (hkeeps b' hb') fun a' ha' => ?_
    exact hf a' (List.mem_cons_of_mem _ ha')

theorem eq_ok_of_toOption_eq_some {ε α : Type} {x : Except ε α} {a : α}
    (h : x.toOption = some a) : x = .ok a := by
  cases x with
  | error e => cases h
  | ok b =>
    cases h
    rfl

/-- If each element has one related result, the results of a list are those of its elements. -/
theorem forall₂_iff_eq_map {α β : Type} {R : α → β → Prop} {f : α → β} {l : List α}
    {results : List β} (h : ∀ a ∈ l, ∀ b, R a b ↔ b = f a) :
    List.Forall₂ R l results ↔ results = l.map f := by
  induction l generalizing results with
  | nil => rw [List.forall₂_nil_left_iff, List.map_nil]
  | cons a l ih =>
    have hrest := fun b hb => h b (List.mem_cons_of_mem a hb)
    simp only [List.forall₂_cons_left_iff, h a List.mem_cons_self, ih hrest, exists_and_left,
      exists_eq_left, List.map_cons]

theorem exists_of_forall₂ {α β : Type} {R : α → β → Prop} {l : List α} {results : List β} {a : α}
    (h : List.Forall₂ R l results) (ha : a ∈ l) : ∃ b ∈ results, R a b := by
  induction h with
  | nil => cases ha
  | cons hfirst _ ih =>
    rcases List.mem_cons.mp ha with rfl | ha
    · exact ⟨_, List.mem_cons_self, hfirst⟩
    · obtain ⟨b, hb, hab⟩ := ih ha
      exact ⟨b, List.mem_cons_of_mem _ hb, hab⟩

/-- If a list is mapped without an error, each result is that of its element. -/
theorem forall₂_of_mapM_eq_ok {ε α β : Type} {f : α → Except ε β} {l : List α} {results : List β}
    (h : l.mapM f = .ok results) : List.Forall₂ (fun a b => f a = .ok b) l results := by
  induction l generalizing results with
  | nil =>
    cases h
    exact .nil
  | cons a l ih =>
    rw [List.mapM_cons] at h
    obtain ⟨b, hb, h⟩ := exists_of_bind_eq_ok h
    obtain ⟨rest, hrest, h⟩ := exists_of_bind_eq_ok h
    cases h
    exact .cons hb (ih hrest)

/-- A computation on all members of a list succeeds if it does on each of them. -/
theorem exists_mapM_eq_ok {α β ε : Type} {f : α → Except ε β} {l : List α}
    (h : ∀ a ∈ l, ∃ b, f a = .ok b) : ∃ bs, l.mapM f = .ok bs := by
  induction l with
  | nil => exact ⟨[], rfl⟩
  | cons a l ih =>
    obtain ⟨b, hb⟩ := h a List.mem_cons_self
    obtain ⟨bs, hbs⟩ := ih fun a' ha' => h a' (List.mem_cons_of_mem _ ha')
    rw [List.mapM_cons]
    exact ⟨b :: bs, bind_eq_ok hb (bind_eq_ok hbs rfl)⟩

/-- If no key is repeated, a lookup finds exactly the rows of the list. -/
theorem lookup_eq_some_iff_mem {κ α : Type} [DecidableEq κ] {rows : List (κ × α)}
    (hnodup : (rows.map (·.1)).Nodup) {k : κ} {v : α} :
    rows.lookup k = some v ↔ (k, v) ∈ rows := by
  induction rows with
  | nil => simp
  | cons row rows ih =>
    obtain ⟨k', v'⟩ := row
    rw [List.map_cons, List.nodup_cons] at hnodup
    rw [List.lookup_cons, List.mem_cons, Prod.mk.injEq]
    by_cases hk : k = k'
    · subst hk
      have hrest : ¬ (k, v) ∈ rows := fun hmem =>
        hnodup.1 (List.mem_map.mpr ⟨(k, v), hmem, rfl⟩)
      simp [hrest, eq_comm]
    · have hbeq : (k == k') = false := beq_eq_false_iff_ne.mpr hk
      simp [hbeq, hk, ih hnodup.2]

end ParserGen
