import ParserGen.Template.ExpandedGrammar

/-!
# Turns of an expansion

An expansion takes a turn for each number that waits, until none is left or one cannot be expanded.
The turns are described here as a relation, which knows nothing of the bound that makes them end,
and what holds of all expansions is proved by induction over it.

Main results:

- Theorem `Expansion.exists_turns`, theorem `Expansion.exists_runs`: there are no more turns than
  parameters of bounded depth, and they are taken in the order of the numbers.
- Theorem `Expansion.Turns.invariant`, theorem `Expansion.Turns.failure`: what each turn keeps holds
  at the end, and before a turn that fails.  Each turn is that of an instance.
- Theorem `Expansion.expandAll_eq_expandUpTo`: enough turns are the whole expansion.
-/

namespace ParserGen
namespace Expansion

/-- The turns that are taken, the numbers whose turns they are, and their result. -/
inductive Turns (src : ExpansionSource) :
    Expansion → List Nat → Except ExpansionError Unit × Expansion → Prop
  | ended {x : Expansion} : x.queue.pop? = none → Turns src x [] (.ok (), x)
  | failed {x y : Expansion} {i : Nat} {rest : WorkQueue Nat} {e : ExpansionError} :
      x.queue.pop? = some (i, rest) → ({ x with queue := rest }).process src i = (.error e, y) →
      Turns src x [i] (.error e, y)
  | next {x y : Expansion} {i : Nat} {rest : WorkQueue Nat} {visited : List Nat}
      {result : Except ExpansionError Unit × Expansion} :
      x.queue.pop? = some (i, rest) → ({ x with queue := rest }).process src i = (.ok (), y) →
      Turns src y visited result → Turns src x (i :: visited) result

/-- An expansion of everything that can be reached from the start symbol, with the numbers whose
turns are taken and its result. -/
inductive Runs (src : ExpansionSource) :
    List Nat → Except ExpansionError Unit × Expansion → Prop
  | noStart : src.template.startName? = none → Runs src [] (.error .noStartSymbol, empty)
  | refused {name : String} {e : ExpansionError} {x : Expansion} :
      src.template.startName? = some name → empty.instantiate src (.var name) = (.error e, x) →
      Runs src [] (.error e, x)
  | begun {name : String} {i : Nat} {x : Expansion} {visited : List Nat}
      {result : Except ExpansionError Unit × Expansion} :
      src.template.startName? = some name → empty.instantiate src (.var name) = (.ok i, x) →
      Turns src x visited result → Runs src visited result

variable {src : ExpansionSource} {x y : Expansion} {next i : Nat} {visited : List Nat}
  {inst : RuleInstance} {e : ExpansionError} {P : Expansion → Nat → Prop}

/-! ## Single turns -/

/-- A turn is taken for an instance, the next one. -/
theorem Bounded.turn_cases (h : x.Bounded src.template next) {rest : WorkQueue Nat}
    (hpop : x.queue.pop? = some (i, rest)) :
    i = next ∧ ∃ inst, x.instances[next]? = some inst ∧
      ({ x with queue := rest }).process src i =
        ({ x with queue := rest }).expandInstance src next inst := by
  obtain ⟨rfl, hlt, _⟩ := h.pop hpop
  have hinst := Array.getElem?_eq_getElem hlt
  refine ⟨rfl, _, hinst, ?_⟩
  rw [Expansion.process, hinst]

/-- A turn keeps an expansion bounded. -/
theorem Bounded.turn {result : Except ExpansionError Unit} (h : x.Bounded src.template next)
    {rest : WorkQueue Nat} (hpop : x.queue.pop? = some (i, rest))
    (hrun : ({ x with queue := rest }).process src i = (result, y)) :
    y.Bounded src.template (next + 1) := by
  have hturn := (h.pop hpop).2.2.process i
  rwa [hrun] at hturn

/-- If no number waits, all instances have had their turn. -/
theorem Bounded.next_eq (h : x.Bounded src.template next) (hpop : x.queue.pop? = none) :
    next = x.instances.size := by
  have hle := h.next_le
  have hlength := congrArg List.length h.waiting
  rw [WorkQueue.toList_eq_nil_of_pop? hpop, List.length_nil, List.length_range'] at hlength
  omega

/-! ## All turns -/

/-- The numbers of the instances are visited in their order, and there are no more of them than
parameters of bounded depth. -/
theorem exists_turns (bounded : ∃ next, x.Bounded src.template next) :
    ∃ count ≤ (Parameter.upTo src.template.vocabulary maxInstanceDepth).length - x.taken,
      Turns src x (List.range' x.taken count) (x.expandQueue src bounded) := by
  fun_induction Expansion.expandQueue src x bounded with
  | case1 x bounded hpop => exact ⟨0, Nat.zero_le _, .ended hpop⟩
  | case2 x bounded i rest hpop step e herror =>
    obtain ⟨next, h⟩ := bounded
    obtain ⟨rfl, hlt, _⟩ := h.pop hpop
    have hsize := h.size_le
    refine ⟨1, ?_, ?_⟩
    · rw [h.taken_eq]
      omega
    · rw [h.taken_eq]
      exact .failed hpop (Prod.ext herror rfl)
  | case3 x bounded i rest hpop step hok ih =>
    obtain ⟨next, h⟩ := bounded
    obtain ⟨rfl, hlt, _⟩ := h.pop hpop
    have hsize := h.size_le
    have htaken : step.2.taken = i + 1 := (h.turn hpop rfl).taken_eq
    obtain ⟨count, hcount, hturns⟩ := ih
    rw [htaken] at hcount hturns
    refine ⟨count + 1, ?_, ?_⟩
    · rw [h.taken_eq]
      omega
    · rw [h.taken_eq, List.range'_succ]
      exact .next hpop (Prod.ext hok rfl) hturns

section Invariants

variable (hpop : ∀ {x : Expansion} {next : Nat} (rest : WorkQueue Nat), P x next →
    P { x with queue := rest } next)
  (hstep : ∀ {x y : Expansion} {next : Nat} {inst : RuleInstance}, P x next →
    x.instances[next]? = some inst → x.expandInstance src next inst = (.ok (), y) →
    P y (next + 1))
include hpop hstep

/-- What each turn keeps holds when no number waits any more. -/
theorem Turns.invariant (hturns : Turns src x visited (.ok (), y))
    (bounded : x.Bounded src.template next) (h : P x next) :
    y.Bounded src.template y.instances.size ∧ P y y.instances.size := by
  generalize hresult : (Except.ok (), y) = result at hturns
  induction hturns generalizing next with
  | ended hnone =>
    cases hresult
    obtain rfl := bounded.next_eq hnone
    exact ⟨bounded, h⟩
  | failed => cases hresult
  | @next x x' i rest visited result hsome hrun _ ih =>
    obtain ⟨_, inst, hinst, hprocess⟩ := bounded.turn_cases hsome
    exact ih (bounded.turn hsome hrun)
      (hstep (hpop rest h) hinst (hprocess.symm.trans hrun)) hresult

/-- What each turn keeps holds before the turn that fails, which is that of an instance. -/
theorem Turns.failure (hturns : Turns src x visited (.error e, y))
    (bounded : x.Bounded src.template next) (h : P x next) :
    ∃ x next inst, P x next ∧ x.instances[next]? = some inst ∧
      x.expandInstance src next inst = (.error e, y) := by
  generalize hresult : (Except.error e, y) = result at hturns
  induction hturns generalizing next with
  | ended => cases hresult
  | @failed x x' i rest e' hsome hrun =>
    cases hresult
    obtain ⟨_, inst, hinst, hprocess⟩ := bounded.turn_cases hsome
    exact ⟨_, _, inst, hpop rest h, hinst, hprocess.symm.trans hrun⟩
  | @next x x' i rest visited result hsome hrun _ ih =>
    obtain ⟨_, inst, hinst, hprocess⟩ := bounded.turn_cases hsome
    exact ih (bounded.turn hsome hrun)
      (hstep (hpop rest h) hinst (hprocess.symm.trans hrun)) hresult

end Invariants

/-- What each turn keeps, also if it fails, holds at the end. -/
theorem Turns.kept {P : Expansion → Prop} {result : Except ExpansionError Unit × Expansion}
    (hturns : Turns src x visited result) (h : P x)
    (hpop : ∀ {x : Expansion} (rest : WorkQueue Nat), P x → P { x with queue := rest })
    (hturn : ∀ {x : Expansion} {i : Nat} {inst : RuleInstance}, P x →
      x.instances[i]? = some inst → P (x.expandInstance src i inst).2) : P result.2 := by
  have hprocess : ∀ {x : Expansion} (i : Nat), P x → P (x.process src i).2 := by
    intro x i hx
    unfold process
    split
    · exact hx
    · rename_i hinst
      exact hturn hx hinst
  induction hturns with
  | ended => exact h
  | @failed _ _ i rest _ _ hrun =>
    have hlast := hprocess i (hpop rest h)
    rwa [hrun] at hlast
  | @next _ _ i rest _ _ _ hrun _ ih =>
    have hnext := hprocess i (hpop rest h)
    rw [hrun] at hnext
    exact ih hnext

/-- The instances stay bounded, also if a turn fails. -/
theorem Turns.bounded {result : Except ExpansionError Unit × Expansion}
    (hturns : Turns src x visited result) (h : x.Bounded src.template next) :
    ∃ last, result.2.Bounded src.template last := by
  induction hturns generalizing next with
  | ended => exact ⟨next, h⟩
  | failed hpop hrun => exact ⟨next + 1, h.turn hpop hrun⟩
  | next hpop hrun _ ih => exact ih (h.turn hpop hrun)

/-! ## The whole expansion -/

/-- An expansion begins bounded. -/
theorem bounded_begun {name : String} {answer : Except ExpansionError Nat}
    (hstart : src.template.startName? = some name)
    (hbegun : empty.instantiate src (.var name) = (answer, x)) : x.Bounded src.template 0 := by
  have hbounded :=
    (bounded_empty src.template).instantiate (Template.over_vocabulary_start hstart)
  rwa [hbegun] at hbounded

/-- An expansion ends after no more turns than there are parameters of bounded depth; its turns are
those of the first numbers, one after the other. -/
theorem exists_runs (src : ExpansionSource) :
    ∃ count ≤ (Parameter.upTo src.template.vocabulary maxInstanceDepth).length,
      Runs src (List.range count) (expandAll src) := by
  unfold expandAll
  split
  · rename_i hstart
    exact ⟨0, Nat.zero_le _, .noStart hstart⟩
  · rename_i name hstart
    dsimp only
    split
    · rename_i e herror
      exact ⟨0, Nat.zero_le _, .refused hstart (Prod.ext herror rfl)⟩
    · rename_i i hbegun
      have hbounded := bounded_begun hstart (x := (empty.instantiate src (.var name)).2) rfl
      obtain ⟨count, hcount, hturns⟩ := exists_turns ⟨0, hbounded⟩
      rw [hbounded.taken_eq] at hcount hturns
      rw [← List.range_eq_range'] at hturns
      exact ⟨count, hcount, .begun hstart (Prod.ext hbegun rfl) hturns⟩

/-- What comes of an expansion comes of some turns. -/
theorem runs_of_expandAll {result : Except ExpansionError Unit × Expansion}
    (h : expandAll src = result) : ∃ visited, Runs src visited result := by
  obtain ⟨count, _, hruns⟩ := exists_runs src
  exact ⟨_, h ▸ hruns⟩

/-- What holds in the beginning, and is kept by each turn, holds at the end, also if it fails. -/
theorem expandAll_induction {P : Expansion → Prop} (hempty : P empty)
    (hbegun : ∀ {name : String}, src.template.startName? = some name →
      P (empty.instantiate src (.var name)).2)
    (hpop : ∀ {x : Expansion} (rest : WorkQueue Nat), P x → P { x with queue := rest })
    (hturn : ∀ {x : Expansion} {i : Nat} {inst : RuleInstance}, P x →
      x.instances[i]? = some inst → P (x.expandInstance src i inst).2) :
    P (expandAll src).2 := by
  obtain ⟨_, hruns⟩ : ∃ visited, Runs src visited (expandAll src) := runs_of_expandAll rfl
  generalize expandAll src = result at hruns
  cases hruns with
  | noStart => exact hempty
  | refused hstart hrefused =>
    have hx := hbegun hstart
    rwa [hrefused] at hx
  | begun hstart hstarted hturns =>
    have hx := hbegun hstart
    rw [hstarted] at hx
    exact hturns.kept hx hpop hturn

/-- At the end the instances are bounded, also if the expansion fails. -/
theorem bounded_expandAll (src : ExpansionSource) :
    ∃ last, (expandAll src).2.Bounded src.template last := by
  obtain ⟨_, hruns⟩ : ∃ visited, Runs src visited (expandAll src) := runs_of_expandAll rfl
  generalize expandAll src = result at hruns
  cases hruns with
  | noStart => exact ⟨0, bounded_empty src.template⟩
  | refused hstart hrefused => exact ⟨0, bounded_begun hstart hrefused⟩
  | begun hstart hbegun hturns => exact hturns.bounded (bounded_begun hstart hbegun)

/-! ## Counted expansion -/

/-- Take at most `fuel` turns. -/
def expandUpTo (src : ExpansionSource) : Nat → Expansion → Except ExpansionError Unit × Expansion
  | 0, x => (.ok (), x)
  | fuel + 1, x =>
      match x.queue.pop? with
      | none => (.ok (), x)
      | some (i, rest) =>
          let step := ({ x with queue := rest }).process src i
          match step.1 with
          | .error e => (.error e, step.2)
          | .ok () => expandUpTo src fuel step.2

/-- No turn is left, or the last one has failed. -/
def HasEnded (result : Except ExpansionError Unit × Expansion) : Prop :=
  result.1.isOk = true → result.2.queue.pop? = none

instance (result : Except ExpansionError Unit × Expansion) : Decidable (HasEnded result) :=
  inferInstanceAs (Decidable (_ → _))

/-- If the expansion has ended after that, it is the whole expansion. -/
theorem expandQueue_eq_expandUpTo {fuel : Nat} (bounded : ∃ next, x.Bounded src.template next)
    (h : HasEnded (expandUpTo src fuel x)) : expandQueue src x bounded = expandUpTo src fuel x := by
  fun_induction Expansion.expandQueue src x bounded generalizing fuel with
  | case1 x bounded hpop =>
    cases fuel with
    | zero => rfl
    | succ fuel => rw [expandUpTo, hpop]
  | case2 x bounded i rest hpop step e =>
    rename_i herror
    cases fuel with
    | zero => cases hpop.symm.trans (h rfl)
    | succ fuel =>
      rw [expandUpTo, hpop]
      simp only [step, herror]
  | case3 x bounded i rest hpop step hok =>
    rename_i ih
    cases fuel with
    | zero => cases hpop.symm.trans (h rfl)
    | succ fuel =>
      have hnext : expandUpTo src (fuel + 1) x = expandUpTo src fuel step.2 := by
        rw [expandUpTo, hpop]
        simp only [step, hok]
      rw [hnext] at h ⊢
      exact ih h

/-- An expansion that has ended within some turns is the whole expansion. -/
theorem expandAll_eq_expandUpTo (fuel : Nat) {name : String} {i : Nat}
    (hstart : src.template.startName? = some name)
    (hbegun : empty.instantiate src (.var name) = (.ok i, x))
    (h : HasEnded (expandUpTo src fuel x)) :
    expandAll src = expandUpTo src fuel x := by
  unfold expandAll
  split
  · rename_i hnone
    cases hnone.symm.trans hstart
  · rename_i name' hname
    cases hname.symm.trans hstart
    dsimp only
    split
    · rename_i e herror
      rw [hbegun] at herror
      cases herror
    · have hx : (empty.instantiate src (.var name)).2 = x := congrArg Prod.snd hbegun
      rw [← hx] at h ⊢
      exact expandQueue_eq_expandUpTo _ h

end Expansion

namespace Template

variable {t : Template} {sorts : RuleSorts} {g : Grammar}

/-- A grammar that is the result of expansion is defined by what the expansion declares. -/
theorem expand_eq_ok_iff : (t.expand sorts).result = .ok g ↔
    ∃ levels x, precedences ∅ 0 t.levels = .ok levels ∧
      Expansion.expandAll ⟨t, sorts, levels⟩ = (.ok (), x) ∧
      Grammar.define (x.declarations ⟨t, sorts, levels⟩) = .ok g := by
  unfold expand
  constructor
  · intro hg
    split at hg
    · cases hg
    · rename_i levels hlevels
      dsimp only at hg
      split at hg
      · cases hg
      · rename_i x hx
        split at hg
        · cases hg
        · rename_i hdefine
          cases hg
          exact ⟨levels, x, hlevels, hx, hdefine⟩
  · rintro ⟨levels, x, hlevels, hx, hdefine⟩
    simp only [hlevels, hx, hdefine]

end Template
end ParserGen
