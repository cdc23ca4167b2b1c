import Mathlib.Logic.Relation
import ParserGen.Proofs.Engine.Machine

/-!
# Reductions in a row

Between two shifts a machine makes reductions, and only these can go on for ever.  A configuration
settles if they do not.  As the machine has no choice, a configuration settles if and only if one
that it is reduced to does.

Main results:

- Theorem `Settles.of_reductions`: reductions before a configuration that settles do no harm.
- Theorem `Settles.not_cyclic`: a configuration that settles is not reduced to itself.
- Theorem `exists_final_of_settles`: if the configurations on the way settle, the machine comes to
  an end.
-/

namespace ParserGen

variable {σ τ ν ρ : Type} {table : ParseTable σ τ ν ρ} {c c' : Configuration σ τ ν}

/-- One reduction leads from one configuration to the other. -/
def Reduction (table : ParseTable σ τ ν ρ) (c c' : Configuration σ τ ν) : Prop :=
  ∃ rule replaced, Move table c (.reducing rule replaced) c'

/-- Reductions do not go on for ever. -/
def Settles (table : ParseTable σ τ ν ρ) (c : Configuration σ τ ν) : Prop :=
  Acc (fun c' c => Reduction table c c') c

theorem Reduction.unique {c'' : Configuration σ τ ν} (h : Reduction table c c')
    (h' : Reduction table c c'') : c' = c'' := by
  obtain ⟨_, _, hmove⟩ := h
  obtain ⟨_, _, hmove'⟩ := h'
  exact hmove.unique hmove'

/-- Only a state that reduces on what is ahead has a reduction. -/
theorem Reduction.exists_action (h : Reduction table c c') :
    ∃ s states rule left length below next rest, c.states = s :: states ∧
      table.action s c.input.head? = .reduce rule left length ∧
      c.states.drop length = below :: rest ∧ length ≤ c.stack.length ∧
      table.goto below left = some next ∧
      c' = ⟨next :: below :: rest, .nonterminal left :: c.stack.drop length, c.input⟩ := by
  obtain ⟨rule, replaced, hmove⟩ := h
  cases hmove with
  | reduce haction hdrop hlength hgoto =>
    exact ⟨_, _, _, _, _, _, _, _, rfl, haction, hdrop, hlength, hgoto, rfl⟩

/-! ## Settling -/

theorem Settles.of_not_reduction (h : ∀ c', ¬ Reduction table c c') : Settles table c :=
  Acc.intro c fun c' hc' => absurd hc' (h c')

/-- A configuration settles if the one that it is reduced to does. -/
theorem Settles.of_reduction (h : Reduction table c c') (hc' : Settles table c') :
    Settles table c :=
  Acc.intro c fun _ hc'' => h.unique hc'' ▸ hc'

theorem Settles.of_reductions (h : Relation.ReflTransGen (Reduction table) c c')
    (hc' : Settles table c') : Settles table c := by
  induction h using Relation.ReflTransGen.head_induction_on with
  | refl => exact hc'
  | head hred _ ih => exact .of_reduction hred ih

/-- A configuration that settles is not reduced to itself. -/
theorem Settles.not_cyclic (h : Settles table c) : ¬ Relation.TransGen (Reduction table) c c := by
  induction h with
  | intro c _ ih =>
    intro hcycle
    obtain ⟨c', hred, hback⟩ := Relation.TransGen.head'_iff.mp hcycle
    exact ih c' hred (Relation.TransGen.tail' hback hred)

/-! ## Moves without a shift -/

/-- Input is only used up. -/
theorem Moves.length_input_le {events : List (ParseEvent σ τ ν ρ)} (h : Moves table c events c') :
    c'.input.length ≤ c.input.length := by
  induction h with
  | nil _ => exact Nat.le_refl _
  | cons hmove _ ih =>
    cases hmove with
    | shift _ => exact Nat.le_succ_of_le ih
    | reduce _ _ _ _ => exact ih

/-- Moves that use no input are reductions. -/
theorem Moves.reductions {events : List (ParseEvent σ τ ν ρ)} (h : Moves table c events c')
    (hinput : c'.input = c.input) : Relation.ReflTransGen (Reduction table) c c' := by
  induction h with
  | nil _ => exact .refl
  | cons hmove hmoves ih =>
    cases hmove with
    | shift _ =>
      have hle := hmoves.length_input_le
      rw [hinput, List.length_cons] at hle
      exact absurd hle (Nat.not_succ_le_self _)
    | reduce haction hdrop hlength hgoto =>
      exact .head ⟨_, _, .reduce haction hdrop hlength hgoto⟩ (ih hinput)

/-! ## Coming to an end -/

/-- If what holds on the way makes configurations settle, the machine comes to an end. -/
theorem exists_final_of_settles {motive : Configuration σ τ ν → Prop}
    (keep : ∀ {c e c'}, motive c → Move table c e c' → motive c')
    (settles : ∀ {c}, motive c → Settles table c) (hc : motive c) :
    ∃ events final, Moves table c events final ∧ motive final ∧
      ∀ e c', ¬ Move table final e c' := by
  induction hn : c.input.length using Nat.strongRecOn generalizing c with
  | _ n ih =>
    have hsettles := settles hc
    induction hsettles with
    | intro c _ ihreduced =>
      by_cases hmove : ∃ e c', Move table c e c'
      · obtain ⟨e, c', hmove⟩ := hmove
        have hnext : ∃ events final, Moves table c' events final ∧ motive final ∧
            ∀ e c', ¬ Move table final e c' := by
          have hc' := keep hc hmove
          cases hmove with
          | shift _ => exact ih _ (by simp [← hn]) hc' rfl
          | reduce haction hdrop hlength hgoto =>
            exact ihreduced _ ⟨_, _, .reduce haction hdrop hlength hgoto⟩ hc' hn
        obtain ⟨events, final, hmoves, hrest⟩ := hnext
        exact ⟨e :: events, final, .cons hmove hmoves, hrest⟩
      · exact ⟨[], c, .nil c, hc, fun e c' hmove' => hmove ⟨e, c', hmove'⟩⟩

end ParserGen
