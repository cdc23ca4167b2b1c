import ParserGen.Proofs.Results
import ParserGen.Proofs.Sorts.Allocation
import ParserGen.Proofs.Sorts.Unification
import ParserGen.Proofs.Template.Sorting

/-!
# Checks as constraints

A check takes an arena to one in which more is demanded of the variables.  What it demands is a
property of the sorts of the old variables: every model of the new arena has it, and if the arena
has room, every model of the old arena that has it can be extended to the new variables.  So a check
fails only for want of room or of a model.  Checks in a row demand the properties of all of them.

Main results:

- Theorem `SortArena.Imposes.bind`: two checks in a row.
- Theorem `SortArena.Imposes.foldlM`: a check for each element of a list.
- Theorem `Template.imposes_unifyAt`: unification demands that two variables have the same sort.
- Theorem `Template.imposes_shape`: what is checked for an arrow from new variables demands that
  there are sorts for them.
-/

namespace ParserGen

namespace SortArena

variable {a b : SortArena} {v w m n : Nat} {P Q : (Nat → GroundSort) → Prop} {α : Type}
  {answer : Except SortError SortArena}

/-! ## Constraints -/

/-- A property of the sorts of the variables below `n`. -/
def Local (n : Nat) (P : (Nat → GroundSort) → Prop) : Prop :=
  ∀ ρ ρ', Set.EqOn ρ ρ' (Set.Iio n) → P ρ → P ρ'

theorem Local.and (hP : Local n P) (hQ : Local n Q) : Local n fun ρ => P ρ ∧ Q ρ :=
  fun ρ ρ' heq h => ⟨hP ρ ρ' heq h.1, hQ ρ ρ' heq h.2⟩

theorem Local.forall {P : α → (Nat → GroundSort) → Prop} {l : List α}
    (h : ∀ x ∈ l, Local n (P x)) : Local n fun ρ => ∀ x ∈ l, P x ρ :=
  fun ρ ρ' heq hP x hx => h x hx ρ ρ' heq (hP x hx)

theorem local_eq (hv : v < n) (hw : w < n) : Local n fun ρ => ρ v = ρ w :=
  fun _ _ heq h => (heq hv).symm.trans (h.trans (heq hw))

/-- What a check in `a` leads to that demands `P`, with at most `count` new variables. -/
structure Imposes (a : SortArena) (answer : Except SortError SortArena) (count : Nat)
    (P : (Nat → GroundSort) → Prop) : Prop where
  refines : ∀ b, answer = .ok b → Refines a b
  size_le : ∀ b, answer = .ok b → b.cells.size ≤ a.cells.size + count
  sound : ∀ b, answer = .ok b → ∀ ρ, b.Models ρ → P ρ
  complete : a.cells.size + count ≤ a.limit → ∀ ρ, a.Models ρ → P ρ →
    ∃ b ρ', answer = .ok b ∧ b.Models ρ' ∧ Set.EqOn ρ ρ' (Set.Iio a.cells.size)

/-- What is demanded may be said in other words. -/
theorem Imposes.congr (h : Imposes a answer n P) (heq : ∀ ρ, a.Models ρ → (P ρ ↔ Q ρ)) :
    Imposes a answer n Q where
  refines := h.refines
  size_le := h.size_le
  sound b hb ρ hρ := (heq ρ ((h.refines b hb).models ρ hρ)).mp (h.sound b hb ρ hρ)
  complete hroom ρ hρ hQ := h.complete hroom ρ hρ ((heq ρ hρ).mpr hQ)

/-- A check may be said to need more variables than it does. -/
theorem Imposes.mono (h : Imposes a answer m P) (hmn : m ≤ n) : Imposes a answer n P where
  refines := h.refines
  size_le b hb := (h.size_le b hb).trans (Nat.add_le_add_left hmn _)
  sound := h.sound
  complete hroom := h.complete ((Nat.add_le_add_left hmn _).trans hroom)

/-- A check that does nothing demands nothing. -/
theorem imposes_ok (ha : a.WellFormed) : Imposes a (.ok a) 0 fun _ => True where
  refines := by
    rintro b ⟨⟩
    exact .refl ha
  size_le := by
    rintro b ⟨⟩
    exact Nat.le_refl _
  sound _ _ _ _ := trivial
  complete _ ρ hρ _ := ⟨a, ρ, rfl, hρ, fun _ _ => rfl⟩

/-- A check may fail if what it demands holds in no model. -/
theorem imposes_error {e : SortError} (hP : ∀ ρ, a.Models ρ → ¬ P ρ) :
    Imposes a (.error e) n P where
  refines := nofun
  size_le := nofun
  sound := nofun
  complete _ ρ hρ hPρ := absurd hPρ (hP ρ hρ)

/-- Two checks in a row. -/
theorem Imposes.bind {f : SortArena → Except SortError SortArena} (h : Imposes a answer m P)
    (hlocal : Local a.cells.size Q) (hf : ∀ b, Refines a b → Imposes b (f b) n Q) :
    Imposes a (answer >>= f) (m + n) fun ρ => P ρ ∧ Q ρ where
  refines c hc := by
    obtain ⟨b, hb, hfb⟩ := exists_of_bind_eq_ok hc
    have hab := h.refines b hb
    exact hab.trans ((hf b hab).refines c hfb)
  size_le c hc := by
    obtain ⟨b, hb, hfb⟩ := exists_of_bind_eq_ok hc
    have hfirst := h.size_le b hb
    have hsecond := (hf b (h.refines b hb)).size_le c hfb
    omega
  sound c hc ρ hρ := by
    obtain ⟨b, hb, hfb⟩ := exists_of_bind_eq_ok hc
    have hsecond := hf b (h.refines b hb)
    have hρb := (hsecond.refines c hfb).models ρ hρ
    exact ⟨h.sound b hb ρ hρb, hsecond.sound c hfb ρ hρ⟩
  complete hroom ρ hρ hPQ := by
    -- The model that the first check leaves has `Q` as well, which is about older variables.
    obtain ⟨b, ρ', rfl, hρ', heq⟩ := h.complete (by omega) ρ hρ hPQ.1
    have hab := h.refines b rfl
    have hsize := h.size_le b rfl
    have hroom' : b.cells.size + n ≤ b.limit := by
      rw [hab.limit]
      omega
    obtain ⟨c, ρ'', hc, hρ'', heq'⟩ := (hf b hab).complete hroom' ρ' hρ' (hlocal ρ ρ' heq hPQ.2)
    exact ⟨c, ρ'', hc, hρ'', heq.trans (hab.eqOn heq')⟩

/-- A check for each element of a list. -/
theorem Imposes.foldlM {f : SortArena → α → Except SortError SortArena} {count : α → Nat}
    {P : α → (Nat → GroundSort) → Prop} {l : List α} (ha : a.WellFormed)
    (hlocal : ∀ x ∈ l, Local a.cells.size (P x))
    (hf : ∀ b, Refines a b → ∀ x ∈ l, Imposes b (f b x) (count x) (P x)) :
    Imposes a (l.foldlM f a) (l.map count).sum fun ρ => ∀ x ∈ l, P x ρ := by
  induction l generalizing a with
  | nil => exact (imposes_ok ha).congr fun ρ _ => by simp
  | cons x l ih =>
    obtain ⟨hx, hl⟩ := List.forall_mem_cons.mp hlocal
    rw [List.foldlM_cons, List.map_cons, List.sum_cons]
    refine Imposes.congr (.bind (hf a (.refl ha) x List.mem_cons_self) (.forall hl) fun b hab => ?_)
      fun ρ _ => by rw [List.forall_mem_cons]
    refine ih hab.wellFormed (fun y hy ρ ρ' heq => ?_) fun c hbc y hy => ?_
    · exact hl y hy ρ ρ' (hab.eqOn heq)
    · exact hf c (hab.trans hbc) y (List.mem_cons_of_mem _ hy)

end SortArena

namespace Template

open SortArena

variable {a b : SortArena} {s : Scope} {v w m n : Nat} {P Q : (Nat → GroundSort) → Prop}

/-! ## Names in scope -/

/-- The sorts of the names in scope; `*` for others. -/
def Scope.env (s : Scope) (ρ : Nat → GroundSort) (name : String) : GroundSort :=
  match s.find name with
  | .ok v => ρ v
  | .error _ => .star

/-- A name is in scope. -/
def Scope.Knows (s : Scope) (name : String) : Prop := ∃ v, s.find name = .ok v

/-- The names in scope have variables of the arena, whose first variable stands for `*`. -/
structure Scope.Fits (s : Scope) (a : SortArena) : Prop where
  wellFormed : a.WellFormed
  star_lt : star < a.cells.size
  star_eq : ∀ ρ, a.Models ρ → ρ star = .star
  lt : ∀ name v, s.find name = .ok v → v < a.cells.size

/-- Names keep their variables when the arena is refined. -/
theorem Scope.Fits.refine (h : s.Fits a) (hab : Refines a b) : s.Fits b where
  wellFormed := hab.wellFormed
  star_lt := h.star_lt.trans_le hab.size_le
  star_eq ρ hρ := h.star_eq ρ (hab.models ρ hρ)
  lt name v hv := (h.lt name v hv).trans_le hab.size_le

/-- The sorts of the names depend only on the variables of the arena. -/
theorem Scope.Fits.env_congr (h : s.Fits a) {ρ ρ' : Nat → GroundSort}
    (heq : Set.EqOn ρ ρ' (Set.Iio a.cells.size)) : s.env ρ = s.env ρ' := by
  funext name
  unfold Scope.env
  split
  · rename_i v hv
    exact heq (h.lt name v hv)
  · rfl

/-- A name in scope has the sort of its variable. -/
theorem Scope.env_of_find {name : String} (hv : s.find name = .ok v) (ρ : Nat → GroundSort) :
    s.env ρ name = ρ v := by
  unfold Scope.env
  rw [hv]

/-- Something may be checked for a name if that demands that the name is in scope. -/
theorem imposes_find {name : String} {f : Nat → Except SortError SortArena}
    (hknown : ∀ ρ, a.Models ρ → P ρ → s.Knows name)
    (hf : ∀ v, s.find name = .ok v → Imposes a (f v) n P) :
    Imposes a (s.find name >>= f) n P := by
  cases hfind : s.find name with
  | error e =>
    refine imposes_error fun ρ hρ hP => ?_
    obtain ⟨v, hv⟩ := hknown ρ hρ hP
    cases hfind.symm.trans hv
  | ok v => exact hf v hfind

/-! ## Unification and allocation -/

/-- Unification demands that two variables have the same sort. -/
theorem imposes_unifyAt (ha : a.WellFormed) (hv : v < a.cells.size) (hw : w < a.cells.size)
    (symbol : String) : Imposes a (unifyAt a symbol v w) 0 fun ρ => ρ v = ρ w := by
  have hsolves := ha.unify_spec hv hw
  unfold unifyAt
  split
  · rename_i b hunify
    rw [hunify] at hsolves
    have hmodels : ∀ ρ, b.Models ρ ↔ a.Models ρ ∧ ρ v = ρ w :=
      fun ρ => (hsolves.ok rfl ρ).trans (and_congr_right' agrees_singleton)
    have hsize := hsolves.size
    constructor
    · rintro _ ⟨⟩
      exact ⟨hsolves.wellFormed, hsize.ge, hsolves.limit, fun ρ hρ => ((hmodels ρ).mp hρ).1⟩
    · rintro _ ⟨⟩
      exact hsize.le
    · rintro _ ⟨⟩ ρ hρ
      exact ((hmodels ρ).mp hρ).2
    · exact fun _ ρ hρ heq => ⟨b, ρ, rfl, (hmodels ρ).mpr ⟨hρ, heq⟩, fun _ _ => rfl⟩
  · rename_i hunify
    rw [hunify] at hsolves
    exact imposes_error fun ρ hρ heq => hsolves.error _ rfl ρ hρ (agrees_singleton.mpr heq)
  · rename_i hunify
    rw [hunify] at hsolves
    exact imposes_error fun ρ hρ heq => hsolves.error _ rfl ρ hρ (agrees_singleton.mpr heq)

theorem freshVariable_eq_ok : freshVariable a = .ok (v, b) ↔ a.fresh = some (v, b) := by
  unfold freshVariable
  cases a.fresh <;> simp

theorem arrowVariable_eq_ok {vs : List Nat} :
    arrowVariable a vs = .ok (v, b) ↔ a.arrow vs = some (v, b) := by
  unfold arrowVariable
  cases a.arrow vs <;> simp

/-- There is a fresh variable as long as there is room for one. -/
theorem exists_freshVariable (hroom : a.cells.size < a.limit) :
    ∃ v b, freshVariable a = .ok (v, b) := by
  obtain ⟨v, b, hb⟩ := exists_allocate hroom .unknown
  exact ⟨v, b, freshVariable_eq_ok.mpr hb⟩

/-- There is a variable for an arrow as long as there is room for one. -/
theorem exists_arrowVariable (hroom : a.cells.size < a.limit) (vs : List Nat) :
    ∃ v b, arrowVariable a vs = .ok (v, b) := by
  obtain ⟨v, b, hb⟩ := exists_allocate hroom (.arrow vs)
  exact ⟨v, b, arrowVariable_eq_ok.mpr hb⟩

/-- The variables that are made are fresh, and as many as were asked for. -/
theorem fresh_of_freshVariables {count : Nat} {vs : List Nat} (ha : a.WellFormed)
    (h : freshVariables a count = .ok (vs, b)) : Fresh a vs b ∧ vs.length = count := by
  induction count generalizing a vs with
  | zero =>
    cases h
    exact ⟨.nil ha, rfl⟩
  | succ count ih =>
    obtain ⟨⟨v, c⟩, hc, h⟩ := exists_of_bind_eq_ok h
    obtain ⟨⟨vs, d⟩, hd, h⟩ := exists_of_bind_eq_ok h
    cases h
    rw [freshVariable_eq_ok] at hc
    obtain ⟨hfresh, hlength⟩ := ih (ha.fresh hc) hd
    exact ⟨.cons ha hc hfresh, congrArg (· + 1) hlength⟩

/-- There are fresh variables as long as there is room for them. -/
theorem exists_freshVariables {count : Nat} (hroom : a.cells.size + count ≤ a.limit) :
    ∃ vs b, freshVariables a count = .ok (vs, b) := by
  induction count generalizing a with
  | zero => exact ⟨[], a, rfl⟩
  | succ count ih =>
    obtain ⟨v, b, hb⟩ := exists_freshVariable (a := a) (by omega)
    obtain ⟨hsize, hlimit, _⟩ := size_allocate (freshVariable_eq_ok.mp hb)
    obtain ⟨vs, c, hc⟩ := ih (a := b) (by omega)
    refine ⟨v :: vs, c, ?_⟩
    rw [freshVariables, hb]
    change freshVariables b count >>= _ = _
    rw [hc]
    rfl

/-- What is checked for the arrow from new variables demands that there are sorts for them. -/
theorem imposes_shape {count : Nat} {f : List Nat → Nat → SortArena → Except SortError SortArena}
    {Q : List Nat → Nat → (Nat → GroundSort) → Prop} (ha : a.WellFormed)
    (hf : ∀ vs shape b, Shaped a vs shape b → vs.length = count →
      Imposes b (f vs shape b) n (Q vs shape))
    (hsound : ∀ vs shape b ρ, Shaped a vs shape b → b.Models ρ → Q vs shape ρ → P ρ)
    (hcomplete : ∀ ρ, a.Models ρ → P ρ → ∃ sorts : List GroundSort, sorts.length = count ∧
      ∀ vs shape b ρ', Shaped a vs shape b → b.Models ρ' →
        Set.EqOn ρ ρ' (Set.Iio a.cells.size) → vs.map ρ' = sorts → Q vs shape ρ') :
    Imposes a (do
      let (vs, b) ← freshVariables a count
      let (shape, c) ← arrowVariable b vs
      f vs shape c) (count + 1 + n) P := by
  have hsplit : ∀ c, (do
      let (vs, b) ← freshVariables a count
      let (shape, c) ← arrowVariable b vs
      f vs shape c) = .ok c →
      ∃ vs shape b, Shaped a vs shape b ∧ vs.length = count ∧ f vs shape b = .ok c := by
    intro c hc
    obtain ⟨⟨vs, b₁⟩, hvs, hc⟩ := exists_of_bind_eq_ok hc
    obtain ⟨⟨shape, b⟩, hshape, hc⟩ := exists_of_bind_eq_ok hc
    obtain ⟨hfresh, hlength⟩ := fresh_of_freshVariables ha hvs
    exact ⟨vs, shape, b, hfresh.arrow (arrowVariable_eq_ok.mp hshape), hlength, hc⟩
  constructor
  · intro c hc
    obtain ⟨vs, shape, b, hshaped, hlength, hc⟩ := hsplit c hc
    exact hshaped.toRefines.trans ((hf vs shape b hshaped hlength).refines c hc)
  · intro c hc
    obtain ⟨vs, shape, b, hshaped, hlength, hc⟩ := hsplit c hc
    have hsize := (hf vs shape b hshaped hlength).size_le c hc
    rw [hshaped.size] at hsize
    omega
  · intro c hc ρ hρ
    obtain ⟨vs, shape, b, hshaped, hlength, hc⟩ := hsplit c hc
    have himposes := hf vs shape b hshaped hlength
    exact hsound vs shape b ρ hshaped ((himposes.refines c hc).models ρ hρ)
      (himposes.sound c hc ρ hρ)
  · intro hroom ρ hρ hP
    have hroom₀ : a.cells.size + count ≤ a.limit := by omega
    obtain ⟨vs, b₁, hvs⟩ := exists_freshVariables hroom₀
    obtain ⟨hfresh, hlength⟩ := fresh_of_freshVariables ha hvs
    have hroom₁ : b₁.cells.size < b₁.limit := by
      rw [hfresh.size, hfresh.limit]
      omega
    obtain ⟨shape, b, hshape⟩ := exists_arrowVariable hroom₁ vs
    have hshaped := hfresh.arrow (arrowVariable_eq_ok.mp hshape)
    obtain ⟨sorts, hsorts, hQ⟩ := hcomplete ρ hρ hP
    obtain ⟨ρ', hρ', heq, hmap⟩ := hshaped.extend ρ sorts hρ (hsorts.trans hlength.symm)
    have hroom' : b.cells.size + n ≤ b.limit := by
      rw [hshaped.size, hshaped.limit]
      omega
    obtain ⟨c, ρ'', hc, hρ'', heq'⟩ := (hf vs shape b hshaped hlength).complete hroom' ρ' hρ'
      (hQ vs shape b ρ' hshaped hρ' heq hmap)
    refine ⟨c, ρ'', ?_, hρ'', heq.trans (hshaped.eqOn heq')⟩
    rw [hvs]
    change arrowVariable b₁ vs >>= _ = _
    rw [hshape]
    exact hc

end Template
end ParserGen
