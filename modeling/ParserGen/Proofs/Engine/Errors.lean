import ParserGen.Proofs.Engine.Agreement

/-!
# Engines that are resumed after an error

An engine may be resumed again after it has refused to go on.  Whatever the table, it then refuses
for the same reason and stays as it is, unless a reduction found nowhere to go: the replaced symbols
are gone by then, and the reduction is still due.

Main results:

- Theorem `Engine.prepared_of_reachable`: an announced shift has its token.
- Theorem `Engine.fails_again`: an error without a loss is repeated.
- Theorem `Engine.error_repeats_unless_popped`: which errors are repeated, and what is lost.
-/

namespace ParserGen
namespace Engine

variable {σ τ ν ρ : Type} {table : ParseTable σ τ ν ρ} {e after : Engine σ τ ν}
  {cause : ParseError}

/-! ## What an error leaves -/

/-- The engine without its topmost symbols and the states on them. -/
def popped (e : Engine σ τ ν) (length : Nat) : Engine σ τ ν :=
  { e with states := e.states.drop length, stack := e.stack.drop length }

@[simp] theorem popped_zero (e : Engine σ τ ν) : e.popped 0 = e := rfl

/-- An announced shift has a token to be shifted. -/
def Prepared (e : Engine σ τ ν) : Prop :=
  ∀ next, e.phase = .shift next → ∃ t, e.lookahead = .token t

/-- Announcing a move fails without a change, and never for want of a goto. -/
theorem announce_error {s : σ} {lookahead : Option τ}
    (h : e.announce table s lookahead = (.error cause, after)) :
    after = e ∧ cause ≠ .missingGoto := by
  unfold announce at h
  repeat' split at h
  all_goals cases h
  all_goals exact ⟨rfl, by decide⟩

/-- Finding out what comes next fails for want of symbols or of a token, and then changes
nothing. -/
theorem step_error (h : e.step table = (.error cause, after)) :
    after = e ∧ cause ≠ .missingGoto := by
  unfold step at h
  split at h
  · cases h
    exact ⟨rfl, by decide⟩
  · split at h
    · cases h
    · exact announce_error h
    · exact announce_error h

/-- A reduction fails on stacks that are too short, which it leaves, or where there is nowhere to
go once the symbols have been taken off. -/
theorem reduce_error {left : ν} {length : Nat}
    (h : reduce table e left length = (.error cause, after)) :
    cause = .stackUnderflow ∧ after = e ∨
      cause = .missingGoto ∧ after = e.popped length ∧ length ≤ e.stack.length := by
  unfold reduce at h
  split at h
  · rename_i s states top hstates htop
    split at h
    · cases h
      refine .inr ⟨rfl, by rw [popped, hstates], ?_⟩
      by_contra hlong
      simp [top?, Nat.lt_of_not_le hlong] at htop
    · cases h
  · cases h
    exact .inl ⟨rfl, rfl⟩

/-! ## Announced shifts -/

/-- An engine that is in no shift is prepared. -/
theorem Prepared.of_phase (hphase : ∀ next, e.phase ≠ .shift next) : e.Prepared :=
  fun next h => absurd h (hphase next)

/-- A shift is announced only with its token at hand. -/
theorem prepared_announce (hphase : e.phase = .ready) {s : σ} {lookahead : Option τ}
    (htoken : ∀ t, lookahead = some t → e.lookahead = .token t) :
    (e.announce table s lookahead).2.Prepared := by
  unfold announce
  split
  · cases lookahead with
    | none => exact .of_phase (by simp [hphase])
    | some t => exact fun _ _ => ⟨t, htoken t rfl⟩
  · split <;> exact .of_phase (by simp [hphase])
  · exact .of_phase (by simp)
  · exact .of_phase (by simp)

/-- A step announces a shift only with its token at hand. -/
theorem prepared_step (hphase : e.phase = .ready) : (e.step table).2.Prepared := by
  unfold step
  split
  · exact .of_phase (by simp [hphase])
  · split
    · exact .of_phase (by simp)
    · rename_i t hlookahead
      refine prepared_announce hphase ?_
      rintro _ ⟨⟩
      exact hlookahead
    · exact prepared_announce hphase (by simp)

/-- Resuming keeps an engine prepared. -/
theorem Prepared.resume (he : e.Prepared) : (e.resume table).2.Prepared := by
  cases hphase : e.phase with
  | ready =>
    simp only [Engine.resume, hphase, proceed]
    exact prepared_step rfl
  | shift next =>
    obtain ⟨t, hlookahead⟩ := he next hphase
    simp only [Engine.resume, hphase, shift, hlookahead, proceed]
    exact prepared_step rfl
  | reduce left length =>
    simp only [Engine.resume, hphase]
    rcases hreduce : Engine.reduce table e left length with ⟨_ | _, after⟩
    · obtain ⟨_, rfl⟩ | ⟨_, rfl, _⟩ := reduce_error hreduce
      · exact he
      · exact Prepared.of_phase (e := e.popped length) (by simp [popped, hphase])
    · exact prepared_step rfl
  | awaitingInput => simpa only [Engine.resume, hphase] using he
  | rejecting => simpa only [Engine.resume, hphase] using he
  | accepted => simpa only [Engine.resume, hphase] using he

/-- An offer keeps an engine prepared. -/
theorem Prepared.offer (he : e.Prepared) (input : Lookahead τ) : (e.offer input).2.Prepared := by
  unfold Engine.offer
  split
  · exact .of_phase (by simp)
  · exact he

/-- Every engine that can be reached is prepared. -/
theorem prepared_of_reachable (he : Reachable table e) : e.Prepared := by
  induction he with
  | initial => exact .of_phase (by simp [Engine.initial])
  | resumed _ ih => exact ih.resume
  | offeredToken t _ ih => exact ih.offer (.token t)
  | offeredEnd _ ih => exact ih.offer .finish

/-! ## Resuming again -/

/-- If what comes next could not be found out, it cannot be found out the next time. -/
theorem resume_of_step_error (hphase : e.phase = .ready)
    (h : e.step table = (.error cause, after)) : after.resume table = (.error cause, after) := by
  obtain ⟨rfl, _⟩ := step_error h
  have hready : { after with phase := .ready } = after := by rw [← hphase]
  simp only [Engine.resume, hphase, proceed, hready, h]

/-- An error is repeated, unless it is a reduction that has taken its symbols off. -/
theorem fails_again (he : e.Prepared) (hfails : e.resume table = (.error cause, after)) :
    cause ≠ .missingGoto ∧ after.resume table = (.error cause, after) ∨
      ∃ left length, e.phase = .reduce left length ∧ length ≤ e.stack.length ∧
        cause = .missingGoto ∧ after = e.popped length := by
  cases hphase : e.phase with
  | ready =>
    simp only [Engine.resume, hphase, proceed] at hfails
    exact .inl ⟨(step_error hfails).2, resume_of_step_error rfl hfails⟩
  | shift next =>
    obtain ⟨t, hlookahead⟩ := he next hphase
    simp only [Engine.resume, hphase, shift, hlookahead, proceed] at hfails
    exact .inl ⟨(step_error hfails).2, resume_of_step_error rfl hfails⟩
  | reduce left length =>
    have hresume := hfails
    simp only [Engine.resume, hphase] at hfails
    rcases hreduce : Engine.reduce table e left length with ⟨_ | _, below⟩
    · rw [hreduce, proceed] at hfails
      cases hfails
      obtain ⟨rfl, rfl⟩ | ⟨rfl, rfl, hlength⟩ := reduce_error hreduce
      · exact .inl ⟨by decide, hresume⟩
      · exact .inr ⟨left, length, rfl, hlength, rfl, rfl⟩
    · rw [hreduce, proceed] at hfails
      exact .inl ⟨(step_error hfails).2, resume_of_step_error rfl hfails⟩
  | awaitingInput =>
    have hresume := hfails
    simp only [Engine.resume, hphase] at hfails
    cases hfails
    exact .inl ⟨by decide, hresume⟩
  | rejecting => simp [Engine.resume, hphase] at hfails
  | accepted =>
    have hresume := hfails
    simp only [Engine.resume, hphase] at hfails
    cases hfails
    exact .inl ⟨by decide, hresume⟩

/-- Who tries a reduction again that had nowhere to go does not see the same again, unless it
replaces no symbol: more symbols are lost, or the stacks are too short, or the reduction is made
with symbols that were not announced. -/
theorem resume_popped_iff {left : ν} {length : Nat} (hphase : e.phase = .reduce left length)
    (hfails : e.resume table = (.error .missingGoto, e.popped length)) :
    (((e.popped length).resume table).1 = .error .missingGoto ∧
        ((e.popped length).resume table).2.symbols = (e.popped length).symbols) ↔ length = 0 := by
  constructor
  · rintro ⟨hcause, hsymbols⟩
    have hprepared : (e.popped length).Prepared := .of_phase (by simp [popped, hphase])
    rcases hagain : (e.popped length).resume table with ⟨answer, after⟩
    rw [hagain] at hcause hsymbols
    subst hcause
    obtain ⟨hother, _⟩ | ⟨left', length', hphase', hlength, _, rfl⟩ :=
      fails_again hprepared hagain
    · exact absurd rfl hother
    · obtain ⟨rfl, rfl⟩ := Phase.reduce.inj (hphase.symm.trans hphase')
      have hshorter := congrArg List.length hsymbols
      simp only [symbols, List.length_reverse] at hshorter
      rw [popped, List.length_drop] at hshorter
      omega
  · rintro rfl
    rw [popped_zero] at hfails ⊢
    rw [hfails]
    exact ⟨rfl, rfl⟩

/-- Whatever the table and whatever has been done with an engine, if it refuses to be resumed, it
refuses again for the same reason and stays as it is, unless a reduction has nowhere to go.  Then
the symbols that it replaces and their states are gone, and what the next call answers is the same
only if there were none. -/
theorem error_repeats_unless_popped (he : Reachable table e)
    (hfails : e.resume table = (.error cause, after)) :
    (cause ≠ .missingGoto → after.resume table = (.error cause, after)) ∧
      (cause = .missingGoto → ∃ left length, e.phase = .reduce left length ∧
        length ≤ e.stack.length ∧ after = e.popped length ∧
        ((after.resume table).1 = .error .missingGoto ∧
          (after.resume table).2.symbols = after.symbols ↔ length = 0)) := by
  obtain ⟨hcause, hagain⟩ | ⟨left, length, hphase, hlength, rfl, rfl⟩ :=
    fails_again (prepared_of_reachable he) hfails
  · exact ⟨fun _ => hagain, fun h => absurd h hcause⟩
  · refine ⟨fun h => absurd rfl h, fun _ => ?_⟩
    exact ⟨left, length, hphase, hlength, rfl, resume_popped_iff hphase hfails⟩

/-- A table where a reduction has nowhere to go from the state below the symbol that it replaces,
and somewhere to go from the state below that. -/
def stranding : ParseTable Nat Nat Nat Nat :=
  .ofRows 0
    [((0, some 1), .shift 1), ((1, none), .reduce 2 2 0), ((2, none), .reduce 1 1 1),
      ((3, none), .accept)]
    [((1, 2), 2), ((0, 1), 3)]

/-- The engine that has announced this reduction. -/
def stranded : Engine Nat Nat Nat :=
  (((afterToken stranding 1).resume stranding).2.resume stranding).2

/-- The stranded engine can be reached. -/
theorem reachable_stranded : Reachable stranding stranded :=
  .resumed (.resumed (reachable_afterToken stranding 1))

theorem error_repeats_unless_popped_stranded :
    Reachable stranding stranded ∧
      stranded.resume stranding = (.error .missingGoto, stranded.popped 1) ∧
      (ParseError.missingGoto ≠ .missingGoto →
        (stranded.popped 1).resume stranding = (.error .missingGoto, stranded.popped 1)) ∧
      (ParseError.missingGoto = .missingGoto → ∃ left length,
        stranded.phase = .reduce left length ∧ length ≤ stranded.stack.length ∧
        stranded.popped 1 = stranded.popped length ∧
        (((stranded.popped 1).resume stranding).1 = .error .missingGoto ∧
          ((stranded.popped 1).resume stranding).2.symbols = (stranded.popped 1).symbols ↔
            length = 0)) :=
  ⟨reachable_stranded, rfl, error_repeats_unless_popped reachable_stranded rfl⟩

/-- The reduction was announced with a nonterminal.  It fails and takes the nonterminal off, and at
the next call it is made with the token below, without a word, and the input is accepted. -/
theorem accepts_after_missingGoto :
    Reachable stranding stranded ∧
      stranded.symbols = [.token 1, .nonterminal 2] ∧
      (stranded.resume stranding).1 = .error .missingGoto ∧
      (stranded.resume stranding).2.symbols = [.token 1] ∧
      ((stranded.resume stranding).2.resume stranding).1 = .ok .accepted ∧
      ((stranded.resume stranding).2.resume stranding).2.symbols = [.nonterminal 1] :=
  ⟨reachable_stranded, rfl, rfl, rfl, rfl, rfl⟩

end Engine
end ParserGen
