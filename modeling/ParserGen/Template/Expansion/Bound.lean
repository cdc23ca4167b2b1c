import ParserGen.Template.Expansion.Basic
import ParserGen.Template.Expansion.Vocabulary

/-!
# How many instances there can be

The instances of an expansion are different parameters of bounded depth over the vocabulary of the
template.  There are finitely many such parameters, so the instances run out.  Their numbers wait in
ascending order, and those that have been taken from the queue come before those that wait in it.

Main results:

- Theorem `Expansion.Bounded.size_le`: there are no more instances than parameters of bounded depth.
- Theorem `Expansion.Bounded.process`: an instance that is expanded keeps the bound.
- Theorem `Expansion.Bounded.pop`: the number that is taken from the queue is the next one.
-/

namespace ParserGen

namespace Expansion

/-- What holds of the instances of an expansion at any time, if the numbers before `next` have been
taken from the queue: the others wait in ascending order. -/
structure Bounded (t : Template) (x : Expansion) (next : Nat) : Prop where
  distinct : (x.instances.toList.map (·.closed)).Nodup
  within : ∀ i ∈ x.instances, i.closed.Over t.vocabulary
  shallow : ∀ i ∈ x.instances, i.closed.depth ≤ maxInstanceDepth
  valid : x.queue.Valid
  next_le : next ≤ x.instances.size
  waiting : x.queue.toList = List.range' next (x.instances.size - next)

theorem bounded_empty (t : Template) : Bounded t empty 0 := by
  constructor
  case valid => exact WorkQueue.valid_empty
  all_goals simp [empty]

/-- There are no more instances than parameters of bounded depth. -/
theorem Bounded.size_le {t : Template} {x : Expansion} {next : Nat} (h : x.Bounded t next) :
    x.instances.size ≤ (Parameter.upTo t.vocabulary maxInstanceDepth).length := by
  have hsubset : ∀ p ∈ x.instances.toList.map (·.closed),
      p ∈ Parameter.upTo t.vocabulary maxInstanceDepth := by
    intro p hp
    obtain ⟨i, hi, rfl⟩ := List.mem_map.mp hp
    exact Parameter.mem_upTo (h.within i (by simpa using hi)) (h.shallow i (by simpa using hi))
  simpa using h.distinct.length_le_of_subset hsubset

/-- How many numbers have been taken from the queue. -/
def taken (x : Expansion) : Nat := x.instances.size - x.queue.size

theorem Bounded.taken_eq {t : Template} {x : Expansion} {next : Nat} (h : x.Bounded t next) :
    x.taken = next := by
  have hle := h.next_le
  have hwaiting : x.queue.size = x.instances.size - next := by
    rw [← WorkQueue.length_toList, h.waiting, List.length_range']
  unfold taken
  omega

/-- The number that is taken from the queue is that of the next instance. -/
theorem Bounded.pop {t : Template} {x : Expansion} {next : Nat} (h : x.Bounded t next) {i : Nat}
    {rest : WorkQueue Nat} (hpop : x.queue.pop? = some (i, rest)) :
    i = next ∧ next < x.instances.size ∧ ({ x with queue := rest }).Bounded t (next + 1) := by
  have hwaiting := h.waiting
  rw [WorkQueue.toList_of_pop? hpop] at hwaiting
  cases hsize : x.instances.size - next with
  | zero =>
    rw [hsize] at hwaiting
    cases hwaiting
  | succ count =>
    rw [hsize, List.range'_succ] at hwaiting
    obtain ⟨hi, hrest⟩ := List.cons.inj hwaiting
    have hlt : next < x.instances.size := by omega
    have hcount : count = x.instances.size - (next + 1) := by omega
    exact ⟨hi, hlt, h.distinct, h.within, h.shallow, h.valid.pop hpop, hlt, hcount ▸ hrest⟩

/-! ## Expansion keeps the bound -/

theorem depth_le_of_sourceOf {src : ExpansionSource} {closed : Parameter} {source : Nat}
    (h : sourceOf src closed = .ok source) : closed.depth ≤ maxInstanceDepth := by
  simp only [sourceOf] at h
  split at h
  · cases h
  · split at h
    · cases h
    · split at h
      · cases h
      · split at h
        · cases h
        · omega

theorem not_mem_of_find?_eq_none {x : Expansion} {closed : Parameter}
    (h : x.find? closed = none) : closed ∉ x.instances.toList.map (·.closed) := by
  simp only [find?, Array.findIdx?_eq_none_iff] at h
  intro hmem
  obtain ⟨i, hi, rfl⟩ := List.mem_map.mp hmem
  simpa using h i (by simpa using hi)

variable {src : ExpansionSource} {x : Expansion} {next : Nat}

theorem Bounded.instantiate (h : x.Bounded src.template next) {closed : Parameter}
    (hc : closed.Over src.template.vocabulary) :
    (x.instantiate src closed).2.Bounded src.template next := by
  simp only [Expansion.instantiate]
  split
  · exact h
  · rename_i hnew
    split
    · exact h
    · rename_i source hsource
      constructor
      · simp only [Array.toList_push, List.map_append, List.map_cons, List.map_nil]
        refine List.nodup_append.mpr ⟨h.distinct, by simp, ?_⟩
        intro p hp q hq
        simp only [List.mem_singleton] at hq
        exact fun heq => not_mem_of_find?_eq_none hnew (hq ▸ heq ▸ hp)
      · intro i hi
        rcases Array.mem_push.mp hi with hi | rfl
        · exact h.within i hi
        · exact hc
      · intro i hi
        rcases Array.mem_push.mp hi with hi | rfl
        · exact h.shallow i hi
        · exact depth_le_of_sourceOf hsource
      · exact h.valid.add _
      · simpa using Nat.le_succ_of_le h.next_le
      · have hle := h.next_le
        have hnew : x.instances.size ∉ x.queue.toList := by
          rw [h.waiting, List.mem_range'_1]
          omega
        have hlast : next + (x.instances.size - next) = x.instances.size := by omega
        rw [h.valid.toList_add_of_not_mem hnew, h.waiting, Array.size_push, Nat.succ_sub hle,
          Nat.succ_eq_add_one, List.range'_1_concat, hlast]

theorem Bounded.resolve (h : x.Bounded src.template next) {closed : Parameter}
    (hc : closed.Over src.template.vocabulary) :
    (x.resolve src closed).2.Bounded src.template next := by
  have hi := h.instantiate hc
  simp only [Expansion.resolve]
  split
  · exact h
  · split <;> simp_all

theorem Bounded.resolveAll {env : Bindings} (henv : ∀ b ∈ env, b.2.Over src.template.vocabulary)
    (h : x.Bounded src.template next) {ps : List Parameter}
    (hps : ∀ p ∈ ps, p.Over src.template.vocabulary) :
    (resolveAll src env x ps).2.Bounded src.template next := by
  induction ps generalizing x with
  | nil => exact h
  | cons p rest ih =>
    simp only [Expansion.resolveAll]
    split
    · exact h
    · rename_i closed hsubst
      have hr := h.resolve (Parameter.over_subst henv p closed (hps p (by simp)) hsubst)
      split
      · rename_i hx
        rwa [hx] at hr
      · rename_i hx
        rw [hx] at hr
        have hrest := ih hr fun q hq => hps q (by simp [hq])
        split <;> simp_all

theorem Bounded.addRule {t : Template} (h : x.Bounded t next) (closed : Parameter)
    (rule : InstanceRule) : (x.addRule closed rule).Bounded t next := by
  simp only [Expansion.addRule]
  split
  · exact ⟨h.distinct, h.within, h.shallow, h.valid, h.next_le, h.waiting⟩
  · exact ⟨h.distinct, h.within, h.shallow, h.valid, h.next_le, h.waiting⟩

theorem Bounded.expandBranches {owner : Nat} {inst : RuleInstance} {env : Bindings}
    (henv : ∀ b ∈ env, b.2.Over src.template.vocabulary) (h : x.Bounded src.template next)
    {branches : List (Branch × Nat)}
    (hb : ∀ b ∈ branches, ∀ p ∈ b.1.elements, p.Over src.template.vocabulary) :
    (expandBranches src owner inst env x branches).2.Bounded src.template next := by
  induction branches generalizing x with
  | nil => exact h
  | cons b rest ih =>
    have hr := h.resolveAll henv (hb b (by simp))
    simp only [Expansion.expandBranches]
    split
    · rename_i hx
      rwa [hx] at hr
    · rename_i hx
      rw [hx] at hr
      split
      · exact hr
      · exact ih (hr.addRule _ _) fun c hc => hb c (by simp [hc])

theorem mem_references {t : Template} {source : Nat} {branch : Branch}
    (h : branch ∈ t.branchesOf source) {p : Parameter} (hp : p ∈ branch.elements) :
    p ∈ t.references := by
  simp only [Template.branchesOf] at h
  cases hrule : t.rules[source]? with
  | none => simp [hrule] at h
  | some rule =>
    simp only [hrule, Option.map_some, Option.getD_some] at h
    simp only [Template.references, List.mem_flatMap]
    exact ⟨rule, List.mem_of_getElem? hrule, branch, h, hp⟩

theorem Bounded.expandInstance (h : x.Bounded src.template next) (owner : Nat)
    {inst : RuleInstance} (hinst : inst ∈ x.instances) :
    (x.expandInstance src owner inst).2.Bounded src.template next := by
  refine h.expandBranches (fun b hb => ?_) fun b hb p hp => ?_
  · simp only [Bindings.ofLists, List.mem_reverse] at hb
    exact Parameter.over_args (h.within inst hinst) b.2
      (List.of_mem_zip (a := b.1) (b := b.2) hb).2
  · have hbranch := (List.mem_zipIdx' (x := b.1) (i := b.2) hb).2
    exact Template.over_vocabulary
      (mem_references (hbranch ▸ List.getElem_mem _) hp)

/-- What is expanded takes no number from the queue. -/
theorem Bounded.process (h : x.Bounded src.template next) (i : Nat) :
    (x.process src i).2.Bounded src.template next := by
  unfold Expansion.process
  split
  · exact h
  · rename_i hinst
    exact h.expandInstance i (Array.mem_of_getElem? hinst)

end Expansion
end ParserGen
