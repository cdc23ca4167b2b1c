import ParserGen.Proofs.Automaton.Twins
import ParserGen.Proofs.Language.Acceptance

/-!
# Merging and the accepted strings

The automaton of Pager's method does not always accept what the one accepts that is built without
merging: a merged state can have reductions that an unmerged one has not, and if a precedence or the
order of the rules prefers one of them, an input is lost or gained.  Both engines are followed side
by side here, up to the point where they part.  If they do not part, they accept the same strings,
and they part only over conflicts that are not settled by shifting.

Main results:

- Theorems `Automaton.Faithful.abreast_of_moves` and `trails_of_moves`: how one engine follows the
  other.
- Theorem `Automaton.pgm_accepts_iff_unless_parting`: when both automata accept a string.
- Theorem `Automaton.pgm_rejects_accepted`: a string that only one of them accepts.
-/

namespace ParserGen

open ItemSet

/-- The actions are the same, up to the state that is shifted to. -/
def ParseAction.Matches {σ σ' ν ρ : Type} : ParseAction σ ν ρ → ParseAction σ' ν ρ → Prop
  | .shift _, .shift _ => True
  | .reduce rule left length, .reduce rule' left' length' =>
      rule = rule' ∧ left = left' ∧ length = length'
  | .accept, .accept => True
  | .fail, .fail => True
  | _, _ => False

namespace ParseAction.Matches

variable {σ σ' ν ρ : Type} {x : ParseAction σ ν ρ} {y : ParseAction σ' ν ρ}

theorem refl (x : ParseAction σ ν ρ) : x.Matches x := by
  cases x <;> simp [Matches]

theorem symm (h : x.Matches y) : y.Matches x := by
  cases x <;> cases y <;> simp_all [Matches]

/-- A shift matches shifts only. -/
theorem exists_shift {next : σ} (h : (shift next : ParseAction σ ν ρ).Matches y) :
    ∃ next', y = .shift next' := by
  cases y with
  | shift next' => exact ⟨next', rfl⟩
  | _ => cases h

/-- A reduction matches itself only. -/
theorem eq_reduce {rule : ρ} {left : ν} {length : Nat}
    (h : (reduce rule left length : ParseAction σ ν ρ).Matches y) :
    y = .reduce rule left length := by
  cases y with
  | reduce rule' left' length' =>
    obtain ⟨rfl, rfl, rfl⟩ := h
    rfl
  | _ => cases h

/-- Accepting matches accepting only. -/
theorem eq_accept (h : (accept : ParseAction σ ν ρ).Matches y) : y = .accept := by
  cases y with
  | accept => rfl
  | _ => cases h

end ParseAction.Matches

namespace Automaton

/-- Two engines have made the same moves and have the same symbols and the same input left. -/
structure Abreast (a b : Automaton) (w : List Nat) (c c' : Configuration Nat Nat Nat) : Prop where
  moves : ∃ events, Moves a.table (startConfiguration w) events c ∧
    Moves b.table (startConfiguration w) events c'
  stack : c'.stack = c.stack
  input : c'.input = c.input

/-- A state of an automaton has something to do on a terminal, be it only to reject it. -/
def Acts (a : Automaton) (s t : Nat) : Prop := ∃ st, a.states[s]? = some st ∧ st.action? t ≠ none

/-- The engines come to a point where the first one, in the state `s`, has something to do and the
second one does something else. -/
structure PartAt (a b : Automaton) (w : List Nat) (c c' : Configuration Nat Nat Nat) (s : Nat) :
    Prop where
  abreast : Abreast a b w c c'
  top : c.states.head? = some s
  acts : a.Acts s (upcoming c.input)
  differ : ∃ s', c'.states.head? = some s' ∧
    ¬ (a.table.action s c.input.head?).Matches (b.table.action s' c.input.head?)

variable {g : Grammar} {first : FirstTable} {mode mode' : MergeMode} {a b : Automaton}
  {kernel kernel' : Nat → ItemSet} {w : List Nat} {c c' d : Configuration Nat Nat Nat}
  {e : ParseEvent Nat Nat Nat Nat}

/-! ## Side by side -/

namespace Abreast

/-- Two runs on one string start abreast. -/
theorem start (a b : Automaton) (w : List Nat) :
    Abreast a b w (startConfiguration w) (startConfiguration w) :=
  ⟨⟨[], .nil _, .nil _⟩, rfl, rfl⟩

/-- The two runs may be exchanged. -/
theorem symm (h : Abreast a b w c c') : Abreast b a w c' c := by
  obtain ⟨⟨events, hmoves, hmoves'⟩, hstack, hinput⟩ := h
  exact ⟨⟨events, hmoves', hmoves⟩, hstack.symm, hinput.symm⟩

/-- A string is accepted if the engine accepts from where it is. -/
theorem accepts_iff (h : Abreast a b w c c') : a.Accepts w ↔ AcceptsFrom a.table c := by
  obtain ⟨⟨events, hmoves, _⟩, _, _⟩ := h
  rw [accepts_iff_acceptsFrom, acceptsFrom_iff_of_moves hmoves]

/-- Engines that go on with the same move stay abreast. -/
theorem move {d' : Configuration Nat Nat Nat} (h : Abreast a b w c c')
    (hmove : Move a.table c e d) (hmove' : Move b.table c' e d') (hstack : d'.stack = d.stack)
    (hinput : d'.input = d.input) : Abreast a b w d d' := by
  obtain ⟨⟨events, hmoves, hmoves'⟩, _, _⟩ := h
  exact ⟨⟨events ++ [e], hmoves.append (.cons hmove (.nil _)),
    hmoves'.append (.cons hmove' (.nil _))⟩, hstack, hinput⟩

end Abreast

namespace Faithful

/-- Runs that are abreast follow paths. -/
theorem path_of_abreast (h : g.Augmented) (hfirst : first.Within g)
    (hf : a.Faithful g first mode kernel) (habreast : Abreast a b w c c') :
    a.Path c.states c.stack := by
  obtain ⟨⟨events, hmoves, _⟩, _, _⟩ := habreast
  exact hf.path_of_moves h hfirst (c := startConfiguration w) .start hmoves

/-- If the other engine does the same, both stay abreast. -/
theorem abreast_of_move (h : g.Augmented) (hfirst : first.Within g)
    (hf : a.Faithful g first mode kernel) (hf' : b.Faithful g first mode' kernel')
    (habreast : Abreast a b w c c') (hmove : Move a.table c e d)
    (hmatches : ∀ s s', c.states.head? = some s → c'.states.head? = some s' →
      (a.table.action s c.input.head?).Matches (b.table.action s' c.input.head?)) :
    ∃ d', Move b.table c' e d' ∧ Abreast a b w d d' := by
  have hpath := hf.path_of_abreast h hfirst habreast
  have hpath' := hf'.path_of_abreast h hfirst habreast.symm
  obtain ⟨s', states', hstates'⟩ := hpath'.exists_cons
  have hstack := habreast.stack
  have hinput := habreast.input
  obtain ⟨_, _, _⟩ := c'
  simp only at hstates' hstack hinput
  subst hstates' hstack hinput
  cases hmove with
  | shift haction =>
    have hsame := hmatches _ _ rfl rfl
    rw [List.head?_cons, haction] at hsame
    obtain ⟨next', haction'⟩ := hsame.exists_shift
    exact ⟨_, .shift haction', habreast.move (.shift haction) (.shift haction') rfl rfl⟩
  | reduce haction hdrop hlength hgoto =>
    have hsame := hmatches _ _ rfl rfl
    rw [haction] at hsame
    obtain ⟨_, _, _, hdrop', hgoto'⟩ :=
      hf.exists_goto_of_paths h hfirst hf' hpath hpath' hlength hdrop hgoto
    have hmove' := Move.reduce hsame.eq_reduce hdrop' hlength hgoto'
    exact ⟨_, hmove', habreast.move (.reduce haction hdrop hlength hgoto) hmove' rfl rfl⟩

end Faithful

/-! ## Up to the point of parting -/

/-- A state that does not fail has something to do. -/
theorem acts_of_action_ne_fail {s : Nat} {lookahead : Option Nat}
    (haction : a.table.action s lookahead ≠ .fail) : a.Acts s (lookahead.getD endOfInput) := by
  have hparse : a.parseAction s lookahead ≠ .fail := haction
  rw [parseAction, state?] at hparse
  cases hst : a.states[s]? with
  | none =>
    rw [hst] at hparse
    exact absurd rfl hparse
  | some st =>
    rw [hst, Option.bind_some] at hparse
    refine ⟨st, hst, fun hnone => hparse ?_⟩
    rw [hnone]

/-- Engines that do not part do the same wherever the first one has something to do. -/
theorem matches_of_not_partAt (hnot : ∀ c c' s, ¬ PartAt a b w c c' s)
    (habreast : Abreast a b w c c') {s s' : Nat} (hs : c.states.head? = some s)
    (hs' : c'.states.head? = some s') (hacts : a.Acts s (upcoming c.input)) :
    (a.table.action s c.input.head?).Matches (b.table.action s' c.input.head?) := by
  by_contra hother
  exact hnot c c' s ⟨habreast, hs, hacts, s', hs', hother⟩

/-- A state that moves acts on the upcoming terminal. -/
theorem acts_of_move (hmove : Move a.table c e d) {s : Nat} (hs : c.states.head? = some s) :
    a.Acts s (upcoming c.input) := by
  cases hmove with
  | @shift s _ _ _ t _ haction =>
    cases hs
    have hne : a.table.action s (some t) ≠ .fail := by
      rw [haction]
      nofun
    exact acts_of_action_ne_fail hne
  | @reduce s _ _ _ _ _ input _ _ _ haction _ _ _ =>
    cases hs
    have hne : a.table.action s input.head? ≠ .fail := by
      rw [haction]
      nofun
    exact acts_of_action_ne_fail hne

namespace Faithful

/-- Wherever the first engine gets, the other one gets. -/
theorem abreast_of_moves (h : g.Augmented) (hfirst : first.Within g)
    (hf : a.Faithful g first mode kernel) (hf' : b.Faithful g first mode' kernel')
    (hnot : ∀ c c' s, ¬ PartAt a b w c c' s) {events : List (ParseEvent Nat Nat Nat Nat)}
    (hmoves : Moves a.table c events d) (habreast : Abreast a b w c c') :
    ∃ d', Abreast a b w d d' := by
  induction hmoves generalizing c' with
  | nil _ => exact ⟨c', habreast⟩
  | cons hmove _ ih =>
    obtain ⟨_, _, habreast⟩ := hf.abreast_of_move h hfirst hf' habreast hmove
      fun s s' hs hs' => matches_of_not_partAt hnot habreast hs hs' (acts_of_move hmove hs)
    exact ih habreast

end Faithful

/-- The engine of the automaton that is built without merging is abreast of the other one, or would
be blocked in its place. -/
def Trails (a b : Automaton) (w : List Nat) (c' : Configuration Nat Nat Nat) : Prop :=
  (∃ c, Abreast a b w c c') ∨
    b.Path c'.states c'.stack ∧ a.Blocked c'.stack (upcoming c'.input)

namespace Faithful

/-- An engine that is abreast has something to do, or is blocked. -/
theorem acts_or_blocked (h : g.Augmented) (hfirst : first.Within g)
    (hf : a.Faithful g first mode kernel) (habreast : Abreast a b w c c') :
    (∃ s, c.states.head? = some s ∧ a.Acts s (upcoming c.input)) ∨
      a.Blocked c'.stack (upcoming c'.input) := by
  have hpath := hf.path_of_abreast h hfirst habreast
  obtain ⟨s, states, hstates⟩ := hpath.exists_cons
  rw [hstates] at hpath
  obtain ⟨st, hst⟩ := hf.state_of_path hpath
  rw [habreast.stack, habreast.input]
  by_cases hnone : st.action? (upcoming c.input) = none
  · exact Or.inr ⟨s, states, st, hpath, hst, hnone⟩
  · refine Or.inl ⟨s, ?_, st, hst, hnone⟩
    rw [hstates]
    rfl

/-- Where the engines do not part, the merged one goes on as the other one does, or the other one is
blocked and stays so. -/
theorem trails_of_move (h : g.Augmented) (hfirst : first.Within g) (hclosed : first.Closed g)
    (hf : a.Faithful g first .canonical kernel) (hf' : b.Faithful g first mode kernel')
    (hnot : ∀ c c' s, ¬ PartAt a b w c c' s) (htrails : Trails a b w c')
    (hmove : Move b.table c' e d) : Trails a b w d := by
  have hblock : b.Path c'.states c'.stack → a.Blocked c'.stack (upcoming c'.input) →
      Trails a b w d := fun hpath hblocked =>
    Or.inr ⟨hf'.path_of_move h hfirst hpath hmove,
      hf.blocked_of_move h hfirst hclosed hf' hpath hblocked hmove⟩
  rcases htrails with ⟨c, habreast⟩ | ⟨hpath, hblocked⟩
  · rcases hf.acts_or_blocked h hfirst habreast with ⟨s, hs, hacts⟩ | hblocked
    · have hmatches : ∀ s' s₀, c'.states.head? = some s' → c.states.head? = some s₀ →
          (b.table.action s' c'.input.head?).Matches (a.table.action s₀ c'.input.head?) := by
        intro s' s₀ hs' hs₀
        rw [hs] at hs₀
        cases hs₀
        rw [habreast.input]
        exact (matches_of_not_partAt hnot habreast hs hs' hacts).symm
      obtain ⟨d', _, habreast'⟩ := hf'.abreast_of_move h hfirst hf habreast.symm hmove hmatches
      exact Or.inl ⟨d', habreast'.symm⟩
    · exact hblock (hf'.path_of_abreast h hfirst habreast.symm) hblocked
  · exact hblock hpath hblocked

/-- A run trails another one as long as they do not part. -/
theorem trails_of_moves (h : g.Augmented) (hfirst : first.Within g) (hclosed : first.Closed g)
    (hf : a.Faithful g first .canonical kernel) (hf' : b.Faithful g first mode kernel')
    (hnot : ∀ c c' s, ¬ PartAt a b w c c' s) {events : List (ParseEvent Nat Nat Nat Nat)}
    (hmoves : Moves b.table c' events d) (htrails : Trails a b w c') : Trails a b w d := by
  induction hmoves with
  | nil _ => exact htrails
  | cons hmove _ ih => exact ih (hf.trails_of_move h hfirst hclosed hf' hnot htrails hmove)

/-- What is accepted without merging is accepted by an automaton that does not part from it. -/
theorem accepts_merged (h : g.Augmented) (hfirst : first.Within g)
    (hf : a.Faithful g first mode kernel) (hf' : b.Faithful g first mode' kernel')
    (hnot : ∀ c c' s, ¬ PartAt a b w c c' s) (haccepts : a.Accepts w) : b.Accepts w := by
  obtain ⟨events, c, hmoves, s, states, hstates, haction⟩ := accepts_iff_acceptsFrom.mp haccepts
  obtain ⟨c', habreast⟩ := hf.abreast_of_moves h hfirst hf' hnot hmoves (.start a b w)
  obtain ⟨s', states', hstates'⟩ := (hf'.path_of_abreast h hfirst habreast.symm).exists_cons
  have hs : c.states.head? = some s := List.head?_eq_some_iff.mpr ⟨states, hstates⟩
  have hs' : c'.states.head? = some s' := List.head?_eq_some_iff.mpr ⟨states', hstates'⟩
  have hne : a.table.action s c.input.head? ≠ .fail := by
    rw [haction]
    nofun
  have hmatches := matches_of_not_partAt hnot habreast hs hs' (acts_of_action_ne_fail hne)
  rw [haction] at hmatches
  obtain ⟨⟨events', _, hmoves'⟩, _, hinput⟩ := habreast
  refine accepts_iff_acceptsFrom.mpr ⟨events', c', hmoves', s', states', hstates', ?_⟩
  rw [hinput]
  exact hmatches.eq_accept

/-- What is accepted by an automaton that does not part from the one without merging is accepted by
that one too: where it is blocked the merged one does not accept. -/
theorem accepts_unmerged (havoid : g.AvoidsReserved) (h : g.Augmented) (hfirst : first.Within g)
    (hclosed : first.Closed g) (hf : a.Faithful g first .canonical kernel)
    (hf' : b.Faithful g first mode kernel') (hnot : ∀ c c' s, ¬ PartAt a b w c c' s)
    (haccepts : b.Accepts w) : a.Accepts w := by
  obtain ⟨events, c', hmoves, haccepting⟩ := accepts_iff_acceptsFrom.mp haccepts
  have htrails := hf.trails_of_moves h hfirst hclosed hf' hnot hmoves
    (Or.inl ⟨_, .start a b w⟩)
  have hpath := hf'.path_of_moves h hfirst (c := startConfiguration w) .start hmoves
  have hfree : ¬ a.Blocked c'.stack (upcoming c'.input) := fun hblocked =>
    hf.not_accepting_of_blocked havoid h hfirst hf' hpath hblocked haccepting
  rcases htrails with ⟨c, habreast⟩ | ⟨_, hblocked⟩
  · rcases hf.acts_or_blocked h hfirst habreast with ⟨s, hs, hacts⟩ | hblocked
    · obtain ⟨s', states', hstates', haction⟩ := haccepting
      have hs' : c'.states.head? = some s' := List.head?_eq_some_iff.mpr ⟨states', hstates'⟩
      have hmatches := (matches_of_not_partAt hnot habreast hs hs' hacts).symm
      rw [← habreast.input, haction, habreast.input] at hmatches
      obtain ⟨states, hstates⟩ := List.head?_eq_some_iff.mp hs
      obtain ⟨⟨events', hmoves', _⟩, _, _⟩ := habreast
      exact accepts_iff_acceptsFrom.mpr
        ⟨events', c, hmoves', s, states, hstates, hmatches.eq_accept⟩
    · exact absurd hblocked hfree
  · exact absurd hblocked hfree

end Faithful

/-! ## Where engines part -/

namespace Faithful

variable {s s' t : Nat} {states states' : List Nat} {stack : List (StackSymbol Nat Nat)}
  {st st' : State}

/-- A state that acts and the one it was merged into do the same, unless one of them does not settle
a conflict by shifting. -/
theorem matches_of_not_overruled (h : g.Augmented) (hfirst : first.Within g)
    (hf : a.Faithful g first .canonical kernel) (hf' : b.Faithful g first mode kernel')
    (hpath : a.Path (s :: states) stack) (hpath' : b.Path (s' :: states') stack)
    (hst : a.states[s]? = some st) (hst' : b.states[s']? = some st') {lookahead : Option Nat}
    (ht : lookahead.getD endOfInput = t) (hacts : st.action? t ≠ none)
    (hnot : ¬ Overruled g t (st.target? (.terminal t)) (reductionsOn g st.items t))
    (hnot' : ¬ Overruled g t (st'.target? (.terminal t)) (reductionsOn g st'.items t)) :
    (a.table.action s lookahead).Matches (b.table.action s' lookahead) := by
  have hextends := hf.items_extend_of_paths h hfirst hf' hpath hpath' hst hst'
  have hsame := hf.target?_isSome_of_core_eq hf' hst hst' hextends.core.symm (.terminal t)
  rw [hf.action_eq h hst, hf'.action_eq h hst', ht, State.choice, State.choice]
  cases hshift : st.target? (.terminal t) with
  | some next =>
    cases hshift' : st'.target? (.terminal t) with
    | none =>
      rw [hsame.mpr hshift'] at hshift
      cases hshift
    | some next' =>
      rw [hshift] at hnot
      rw [hshift'] at hnot'
      rw [resolve_eq_shift_of_not_overruled hnot, resolve_eq_shift_of_not_overruled hnot']
      trivial
  | none =>
    have hne : reductionsOn g st.items t ≠ [] := by
      rcases (hf.acts_iff hst).mp hacts with ⟨n, hn⟩ | ⟨r, hr⟩
      · rw [hshift] at hn
        cases hn
      · exact List.ne_nil_of_mem hr
    rw [hsame.mp hshift] at hnot' ⊢
    rw [eq_of_subset_of_not_overruled hne
      (nodup_reductionsOn h (hf'.fits h hfirst hst') t)
      (nodup_reductionsOn h (hf.fits h hfirst hst) t)
      (fun _ => reductionsOn_of_extends hextends) hnot']
    exact .refl _

/-- Where something is overruled there is a conflict that is not settled by shifting. -/
theorem exists_conflict_of_overruled (hf : a.Faithful g first mode kernel)
    (hst : a.states[s]? = some st)
    (hover : Overruled g t (st.target? (.terminal t)) (reductionsOn g st.items t)) :
    ∃ d ∈ a.conflicts, d.state = s ∧ d.terminal = t ∧ ∀ next, d.action ≠ .shift next := by
  obtain ⟨hsome, hother⟩ := hover
  obtain ⟨⟨kind, resolution⟩, hsettled⟩ := Option.ne_none_iff_exists'.mp hsome
  exact ⟨_, hf.mem_conflicts.mpr ⟨s, st, hst, t, kind, resolution, hsettled, rfl⟩, rfl, rfl, hother⟩

/-- Engines part only over a conflict that is not settled by shifting. -/
theorem exists_conflict_of_partAt (h : g.Augmented) (hfirst : first.Within g)
    (hf : a.Faithful g first .canonical kernel) (hf' : b.Faithful g first .pgm kernel')
    (hpart : PartAt a b w c c' s) :
    ∃ d ∈ a.conflicts, a.kernelCore d.state = a.kernelCore s ∧ d.terminal = upcoming c.input ∧
      ∀ next, d.action ≠ .shift next := by
  obtain ⟨habreast, hs, ⟨st, hst, hacts⟩, s', hs', hdiffer⟩ := hpart
  obtain ⟨states, hstates⟩ := List.head?_eq_some_iff.mp hs
  obtain ⟨states', hstates'⟩ := List.head?_eq_some_iff.mp hs'
  have hpath := hf.path_of_abreast h hfirst habreast
  have hpath' := hf'.path_of_abreast h hfirst habreast.symm
  rw [hstates] at hpath
  rw [hstates', habreast.stack] at hpath'
  obtain ⟨st', hst'⟩ := hf'.state_of_path hpath'
  by_cases hover : Overruled g (upcoming c.input) (st.target? (.terminal (upcoming c.input)))
      (reductionsOn g st.items (upcoming c.input))
  · obtain ⟨d, hd, rfl, hterminal, hother⟩ := hf.exists_conflict_of_overruled hst hover
    exact ⟨d, hd, rfl, hterminal, hother⟩
  by_cases hover' : Overruled g (upcoming c.input) (st'.target? (.terminal (upcoming c.input)))
      (reductionsOn g st'.items (upcoming c.input))
  · obtain ⟨u, stu, hstu, hcore, hover⟩ := hf'.exists_overruled h hfirst hf hst' hover'
    obtain ⟨d, hd, rfl, hterminal, hother⟩ := hf.exists_conflict_of_overruled hstu hover
    refine ⟨d, hd, ?_, hterminal, hother⟩
    rw [kernelCore_eq hstu, kernelCore_eq hst, ← hcore,
      hf.items_core_eq_of_paths h hfirst hf' hpath hpath' hst hst']
  · exact absurd (hf.matches_of_not_overruled h hfirst hf' hpath hpath' hst hst' rfl hacts hover
      hover') hdiffer

end Faithful

/-- The automaton of Pager's method and the one that is built without merging accept the same
strings, except those over which the engines part and then come to different ends.  They part only
over conflicts that are not settled by shifting; without such conflicts the automata accept the same
strings. -/
theorem pgm_accepts_iff_unless_parting {declarations : List Declaration}
    {canonical merged : Automaton} (hg : Grammar.define declarations = .ok g)
    (havoid : g.AvoidsReserved) (hcanonical : (generate .canonical g).result = .ok canonical)
    (hmerged : (generate .pgm g).result = .ok merged) :
    (∀ w, (merged.Accepts w ↔ canonical.Accepts w) ↔
        ∀ c c' s, PartAt canonical merged w c c' s →
          (AcceptsFrom merged.table c' ↔ AcceptsFrom canonical.table c)) ∧
      (∀ w c c' s, PartAt canonical merged w c c' s → ∃ d ∈ canonical.conflicts,
        canonical.kernelCore d.state = canonical.kernelCore s ∧ d.terminal = upcoming c.input ∧
          ∀ next, d.action ≠ .shift next) ∧
      ((∀ d ∈ canonical.conflicts, ∃ next, d.action = .shift next) →
        ∀ w, merged.Accepts w ↔ canonical.Accepts w) := by
  have h := Grammar.augmented_of_define hg
  have hfirst := FirstTable.within_ofGrammar g
  have hclosed := closed_of_generate hcanonical
  obtain ⟨_, hc⟩ := faithful_of_generate h hcanonical
  obtain ⟨_, hm⟩ := faithful_of_generate h hmerged
  have hsame : ∀ w, (∀ c c' s, ¬ PartAt canonical merged w c c' s) →
      (merged.Accepts w ↔ canonical.Accepts w) := fun w hnot =>
    ⟨hc.accepts_unmerged havoid h hfirst hclosed hm hnot, hc.accepts_merged h hfirst hm hnot⟩
  refine ⟨fun w => ⟨fun hverdict c c' s hpart => ?_, fun hends => ?_⟩,
    fun _ _ _ _ => hc.exists_conflict_of_partAt h hfirst hm, fun hshifts w => ?_⟩
  · rw [← hpart.abreast.accepts_iff, ← hpart.abreast.symm.accepts_iff]
    exact hverdict
  · by_cases hparts : ∃ c c' s, PartAt canonical merged w c c' s
    · obtain ⟨c, c', s, hpart⟩ := hparts
      rw [hpart.abreast.accepts_iff, hpart.abreast.symm.accepts_iff]
      exact hends c c' s hpart
    · exact hsame w fun c c' s hpart => hparts ⟨c, c', s, hpart⟩
  · refine hsame w fun c c' s hpart => ?_
    obtain ⟨d, hd, _, _, hother⟩ := hc.exists_conflict_of_partAt h hfirst hm hpart
    obtain ⟨next, hnext⟩ := hshifts d hd
    exact hother next hnext

set_option maxRecDepth 100000 in
theorem pgm_accepts_iff_ambiguousSum :
    ∃ g canonical merged, Grammar.define ambiguousSum = .ok g ∧ g.AvoidsReserved ∧
      (generate .canonical g).result = .ok canonical ∧ (generate .pgm g).result = .ok merged ∧
      canonical.conflicts ≠ [] ∧ ∀ w, merged.Accepts w ↔ canonical.Accepts w := by
  have hboth : bothPass .canonical .pgm ambiguousSum (fun g canonical _ =>
      decide (g.AvoidsReserved ∧ canonical.conflicts ≠ [] ∧
        ∀ d ∈ canonical.conflicts, d.action = .shift (d.shift.getD 0))) = true := by
    decide +kernel
  obtain ⟨g, canonical, merged, hg, hcanonical, hmerged, hp⟩ := exists_of_bothPass hboth
  obtain ⟨havoid, hne, hshifts⟩ := of_decide_eq_true hp
  obtain ⟨_, _, hsame⟩ := pgm_accepts_iff_unless_parting hg havoid hcanonical hmerged
  exact ⟨g, canonical, merged, hg, havoid, hcanonical, hmerged, hne,
    hsame fun d hd => ⟨_, hshifts d hd⟩⟩

/-- Two nonterminals end alike, and the terminal that can follow one of them ends the other one too,
where a precedence prefers the reduction. -/
def preferredReduction : List Declaration :=
  [.terminal "x" none, .terminal "b" none, .terminal "t" (some ⟨0, .left⟩),
    .nonterminal "S", .nonterminal "X", .rule 1 [.nonterminal 2, .terminal 3] none,
    .rule 1 [.terminal 2, .nonterminal 2] none, .rule 2 [.terminal 1] (some ⟨1, .left⟩),
    .rule 2 [.terminal 1, .terminal 3] none]

set_option maxRecDepth 100000 in
/-- A string that is accepted without merging can be rejected by the automaton of Pager's method. -/
theorem pgm_rejects_accepted :
    ∃ g canonical merged, Grammar.define preferredReduction = .ok g ∧ g.AvoidsReserved ∧
      (generate .canonical g).result = .ok canonical ∧ (generate .pgm g).result = .ok merged ∧
      canonical.Accepts [2, 1, 3] ∧ ¬ merged.Accepts [2, 1, 3] := by
  have hboth : bothPass .canonical .pgm preferredReduction (fun g canonical merged =>
      decide (g.AvoidsReserved ∧ (canonical.run 100 [2, 1, 3]).outcome = .accepted ∧
        (merged.run 100 [2, 1, 3]).outcome = .rejected)) = true := by
    decide +kernel
  obtain ⟨g, canonical, merged, hg, hcanonical, hmerged, hp⟩ := exists_of_bothPass hboth
  obtain ⟨havoid, haccepted, hrejected⟩ := of_decide_eq_true hp
  refine ⟨g, canonical, merged, hg, havoid, hcanonical, hmerged, ?_, ?_⟩
  · exact ⟨100, accepts?_eq_true_iff.mpr haccepted⟩
  · have hanswer : merged.accepts? 100 [2, 1, 3] = some (.ok false) := by
      rw [accepts?, hrejected]
    exact not_accepts_of_accepts?_eq_false hanswer

end Automaton
end ParserGen
