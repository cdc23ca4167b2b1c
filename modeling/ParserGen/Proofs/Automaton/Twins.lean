import ParserGen.Proofs.Automaton.Merging
import ParserGen.Proofs.Automaton.Paths

/-!
# Two automata on the same symbols

Two automata of the same grammar that have read the same symbols are in states with the same core.
If one of them is built without merging, the other one has its lookaheads and maybe more.  It may
therefore reduce where the first one has nothing to do, but whatever it reduces by there, the first
one would still have nothing to do after the same reduction.

Main results:

- Theorems `Automaton.Faithful.core_eq_of_paths` and `extends_of_paths`: how the states are related.
- Theorem `Automaton.Faithful.mem_lookaheads_of_acts`: a state that is entered over a nonterminal
  acts only on terminals that its rules were begun with.
- Theorem `Automaton.Faithful.blocked_of_move`: where nothing can be done without merging,
  reductions do not help.
-/

namespace ParserGen

open ItemSet

variable {g : Grammar} {first : FirstTable} {mode mode' : MergeMode}

/-! ## What the items of a kernel begin with -/

namespace ItemSet

/-- What begins the symbols after a marker in a closure begins those after a marker in the set. -/
theorem ClosureItem.exists_begins (h : g.Augmented) (hclosed : first.Closed g) {s : ItemSet}
    {i : Item} {t : Nat} (hi : ClosureItem g s i) (ht : t ∈ first.firstOfString (i.rest g)) :
    ∃ k ∈ s, t ∈ first.firstOfString (k.rest g) := by
  induction hi with
  | @kernel k hk => exact ⟨k, hk, ht⟩
  | @start i r rest _ hrest hr ih =>
    rw [Item.rest_start h hr] at ht
    apply ih
    rw [hrest, FirstTable.mem_firstOfString_nonterminal]
    exact Or.inl (hclosed.first r hr t ht)

/-- What can be ahead of an item of a closure can be ahead of an item of the set. -/
theorem ClosureLookahead.exists_ahead (h : g.Augmented) (hclosed : first.Closed g) {s : ItemSet}
    {i : Item} {t : Nat} (ht : ClosureLookahead g first s i t)
    (hnullable : first.allNullable (i.rest g) = true) :
    ∃ k ∈ s, t ∈ first.firstWith (k.rest g) (s.lookaheads k) := by
  induction ht with
  | @kernel k t ht =>
    exact ⟨k, mem_of_mem_lookaheads ht, FirstTable.mem_firstWith.mpr (Or.inr ⟨hnullable, ht⟩)⟩
  | @begins i r rest t hi hrest hr hbegins =>
    rw [Item.rest_start h hr] at hnullable
    have hall : t ∈ first.firstOfString (i.rest g) := by
      rw [hrest, FirstTable.mem_firstOfString_nonterminal]
      exact Or.inr ⟨hclosed.nullable r hr hnullable, hbegins⟩
    obtain ⟨k, hk, ht⟩ := hi.exists_begins h hclosed hall
    exact ⟨k, hk, FirstTable.mem_firstWith.mpr (Or.inl ht)⟩
  | @passed i r rest t _ hrest hr hrestnullable ih =>
    rw [Item.rest_start h hr] at hnullable
    apply ih
    rw [hrest, FirstTable.allNullable_nonterminal, hclosed.nullable r hr hnullable, hrestnullable]
    rfl

theorem exists_ahead_of_closure (h : g.Augmented) (hfirst : first.Within g)
    (hclosed : first.Closed g) {s : ItemSet} {i : Item} {t : Nat} (hi : i ∈ s.closure g first)
    (ht : t ∈ first.firstWith (i.rest g) ((s.closure g first).lookaheads i)) :
    ∃ k ∈ s, t ∈ first.firstWith (k.rest g) (s.lookaheads k) := by
  rcases FirstTable.mem_firstWith.mp ht with hbegins | ⟨hnullable, ht⟩
  · obtain ⟨k, hk, ht⟩ := ((mem_closure h.keyed hfirst).mp hi).exists_begins h hclosed hbegins
    exact ⟨k, hk, FirstTable.mem_firstWith.mpr (Or.inl ht)⟩
  · exact ((mem_lookaheads_closure h.keyed hfirst).mp ht).exists_ahead h hclosed hnullable

end ItemSet

namespace Automaton

variable {a b : Automaton} {kernel kernel' : Nat → ItemSet} {s s' : Nat}
  {states states' : List Nat} {stack : List (StackSymbol Nat Nat)} {st st' : State}

namespace Faithful

/-! ## States that read the same symbols -/

/-- The same symbols lead to states with the same core. -/
theorem core_eq_of_paths (h : g.Augmented) (hfirst : first.Within g)
    (hf : a.Faithful g first mode kernel) (hf' : b.Faithful g first mode' kernel')
    (hpath : a.Path (s :: states) stack) (hpath' : b.Path (s' :: states') stack) :
    (kernel' s').core = (kernel s).core := by
  induction stack generalizing s states s' states' with
  | nil =>
    cases hpath
    cases hpath'
    exact hf'.initial.extends_.core.trans hf.initial.extends_.core.symm
  | cons x stack ih =>
    cases hpath with
    | edge hpath hst htarget =>
      cases hpath' with
      | edge hpath' hst' htarget' =>
        have hreached := (hf.target_state hst htarget).2.extends_.core
        have hreached' := (hf'.target_state hst' htarget').2.extends_.core
        rw [hreached, hreached']
        exact core_successor h.keyed hfirst (ih hpath hpath') _

/-- The same symbols lead to a state that extends the one that they lead to without merging. -/
theorem extends_of_paths (h : g.Augmented) (hfirst : first.Within g)
    (hf : a.Faithful g first .canonical kernel) (hf' : b.Faithful g first mode kernel')
    (hpath : a.Path (s :: states) stack) (hpath' : b.Path (s' :: states') stack) :
    (kernel' s').Extends (kernel s) := by
  induction stack generalizing s states s' states' with
  | nil =>
    cases hpath
    cases hpath'
    rw [hf.initial.eq_of_canonical rfl]
    exact hf'.initial.extends_
  | cons x stack ih =>
    cases hpath with
    | edge hpath hst htarget =>
      cases hpath' with
      | edge hpath' hst' htarget' =>
        rw [(hf.target_state hst htarget).2.eq_of_canonical rfl]
        exact (hf'.target_state hst' htarget').2.extends_.trans
          ((ih hpath hpath').successor h.keyed hfirst _)

theorem items_core_eq_of_paths (h : g.Augmented) (hfirst : first.Within g)
    (hf : a.Faithful g first mode kernel) (hf' : b.Faithful g first mode' kernel')
    (hpath : a.Path (s :: states) stack) (hpath' : b.Path (s' :: states') stack)
    (hst : a.states[s]? = some st) (hst' : b.states[s']? = some st') :
    st'.items.core = st.items.core := by
  rw [hf.items hst, hf'.items hst']
  exact core_closure h.keyed hfirst (hf.core_eq_of_paths h hfirst hf' hpath hpath')

theorem items_extend_of_paths (h : g.Augmented) (hfirst : first.Within g)
    (hf : a.Faithful g first .canonical kernel) (hf' : b.Faithful g first mode kernel')
    (hpath : a.Path (s :: states) stack) (hpath' : b.Path (s' :: states') stack)
    (hst : a.states[s]? = some st) (hst' : b.states[s']? = some st') :
    st'.items.Extends st.items := by
  rw [hf.items hst, hf'.items hst']
  exact (hf.extends_of_paths h hfirst hf' hpath hpath').closure h.keyed hfirst

/-- What can be read after the same symbols is the same. -/
theorem exists_target_of_paths (h : g.Augmented) (hfirst : first.Within g)
    (hf : a.Faithful g first mode kernel) (hf' : b.Faithful g first mode' kernel')
    (hpath : a.Path (s :: states) stack) (hpath' : b.Path (s' :: states') stack)
    (hst : a.states[s]? = some st) (hst' : b.states[s']? = some st') {x : Symbol} {n : Nat}
    (hn : st.target? x = some n) : ∃ n', st'.target? x = some n' := by
  have hcore := hf.items_core_eq_of_paths h hfirst hf' hpath hpath' hst hst'
  obtain ⟨i, hi, hx⟩ := (hf.exists_target_iff hst).mp ⟨n, hn⟩
  exact (hf'.exists_target_iff hst').mpr ⟨i, (core_eq_iff.mp hcore i).mpr hi, hx⟩

/-- Where one automaton goes after a reduction, the other one goes somewhere too. -/
theorem exists_goto_of_paths (h : g.Augmented) (hfirst : first.Within g)
    (hf : a.Faithful g first mode kernel) (hf' : b.Faithful g first mode' kernel')
    (hpath : a.Path states stack) (hpath' : b.Path states' stack) {length left below next : Nat}
    {rest : List Nat} (hlength : length ≤ stack.length) (hdrop : states.drop length = below :: rest)
    (hgoto : a.table.goto below left = some next) :
    ∃ below' rest' next', states'.drop length = below' :: rest' ∧
      b.table.goto below' left = some next' := by
  have hbelow := hpath.drop hlength
  have hbelow' := hpath'.drop hlength
  rw [hdrop] at hbelow
  obtain ⟨below', rest', hdrop'⟩ := hbelow'.exists_cons
  rw [hdrop'] at hbelow'
  obtain ⟨st, hst⟩ := hf.state_of_path hbelow
  obtain ⟨st', hst'⟩ := hf'.state_of_path hbelow'
  rw [hf.goto_eq hst] at hgoto
  obtain ⟨next', hnext'⟩ := hf.exists_target_of_paths h hfirst hf' hbelow hbelow' hst hst' hgoto
  exact ⟨below', rest', next', hdrop', (hf'.goto_eq hst' left).trans hnext'⟩

/-! ## Terminals that a state acts on -/

/-- A state acts on the terminals that it can shift or reduce on. -/
theorem acts_iff (hf : a.Faithful g first mode kernel) (hst : a.states[s]? = some st) {t : Nat} :
    st.action? t ≠ none ↔
      (∃ n, st.target? (.terminal t) = some n) ∨ ∃ r, r ∈ reductionsOn g st.items t := by
  simp only [hf.action?_eq hst, hf.target?_iff hst, ← mem_competedTerminals]
  split
  · rename_i ht
    exact iff_of_true (Option.some_ne_none _) ht
  · rename_i ht
    exact iff_of_false (not_not_intro rfl) ht

/-- A state acts only on terminals that can be ahead of one of its items. -/
theorem exists_ahead_of_acts (h : g.Augmented) (hfirst : first.Within g)
    (hf : a.Faithful g first mode kernel) (hst : a.states[s]? = some st) {t : Nat}
    (hacts : st.action? t ≠ none) :
    ∃ i ∈ st.items, t ∈ first.firstWith (i.rest g) (st.items.lookaheads i) := by
  rcases (hf.acts_iff hst).mp hacts with hshift | ⟨rule, hmem⟩
  · obtain ⟨i, hi, hnext⟩ := (hf.exists_target_iff hst).mp hshift
    obtain ⟨rest, hrest⟩ := Item.next?_eq_some_iff.mp hnext
    refine ⟨i, hi, ?_⟩
    rw [hrest]
    exact FirstTable.mem_firstWith_terminal.mpr rfl
  · obtain ⟨r, hr, rfl, hitem, ht⟩ := complete_item h (hf.fits h hfirst hst) hmem
    refine ⟨_, hitem, ?_⟩
    rw [Item.rest_of_rule_eq h hr rfl, List.drop_length]
    exact FirstTable.mem_firstWith_nil.mpr ht

/-- If a state that is entered over a nonterminal acts on a terminal, the rules of the nonterminal
are begun with that lookahead, unless states are merged. -/
theorem mem_lookaheads_of_acts (h : g.Augmented) (hfirst : first.Within g)
    (hclosed : first.Closed g) (hf : a.Faithful g first .canonical kernel)
    (hst : a.states[s]? = some st) {r : Rule} (hr : r ∈ g.ruleList) {n : Nat} {stn : State}
    (htarget : st.target? (.nonterminal r.left) = some n) (hstn : a.states[n]? = some stn) {t : Nat}
    (hacts : stn.action? t ≠ none) : t ∈ st.items.lookaheads (Item.start r.id) := by
  obtain ⟨i, hi, hahead⟩ := hf.exists_ahead_of_acts h hfirst hstn hacts
  rw [hf.items hstn] at hi hahead
  obtain ⟨k, hk, hahead⟩ := exists_ahead_of_closure h hfirst hclosed hi hahead
  rw [(hf.target_state hst htarget).2.eq_of_canonical rfl] at hk hahead
  obtain ⟨j, hj, hnext, rfl⟩ := mem_advanceOver.mp hk
  have hpassed : t ∈ first.firstWith (j.advance.rest g) (st.items.lookaheads j) := by
    rcases FirstTable.mem_firstWith.mp hahead with hbegins | ⟨hnullable, ht⟩
    · exact FirstTable.mem_firstWith.mpr (Or.inl hbegins)
    · obtain ⟨j', _, hsame, ht⟩ := mem_lookaheads_advanceOver.mp ht
      rw [← Item.advance_inj.mp hsame, ← hf.items hst] at ht
      exact FirstTable.mem_firstWith.mpr (Or.inr ⟨hnullable, ht⟩)
  rw [← hf.items hst] at hj
  exact hf.start_lookaheads h hfirst hst hj (Item.rest_eq_cons_iff.mpr ⟨hnext, rfl⟩) hr hpassed

end Faithful

/-! ## Being blocked -/

/-- After the symbols of the stack, nothing can be done on a terminal. -/
def Blocked (a : Automaton) (stack : List (StackSymbol Nat Nat)) (t : Nat) : Prop :=
  ∃ s states st, a.Path (s :: states) stack ∧ a.states[s]? = some st ∧ st.action? t = none

namespace Faithful

/-- A blocked state has no complete item with the terminal as a lookahead. -/
theorem not_mem_lookaheads_of_blocked (h : g.Augmented) (hf : a.Faithful g first mode kernel)
    (hst : a.states[s]? = some st) {t : Nat} (hblocked : st.action? t = none) {r : Rule}
    (hr : r ∈ g.ruleList) : t ∉ st.items.lookaheads ⟨r.id, r.right.length⟩ := by
  intro ht
  refine (hf.acts_iff hst).mpr (Or.inr ⟨r.id, ?_⟩) hblocked
  exact mem_reductionsOn.mpr ⟨_, mem_of_mem_lookaheads ht,
    (Item.isComplete_of_rule_eq h hr rfl).mpr (Nat.le_refl _), ht, rfl⟩

variable {c c' : Configuration Nat Nat Nat} {e : ParseEvent Nat Nat Nat Nat}

/-- If nothing can be done without merging, a merged automaton can only reduce, and after that
nothing can be done without merging either. -/
theorem blocked_of_move (h : g.Augmented) (hfirst : first.Within g) (hclosed : first.Closed g)
    (hf : a.Faithful g first .canonical kernel) (hf' : b.Faithful g first mode kernel')
    (hpath : b.Path c.states c.stack) (hblocked : a.Blocked c.stack (upcoming c.input))
    (hmove : Move b.table c e c') : a.Blocked c'.stack (upcoming c'.input) := by
  obtain ⟨s, states, st, hown, hst, hnone⟩ := hblocked
  cases hmove with
  | @shift s' next states' stack t input haction =>
    obtain ⟨st', hst'⟩ := hf'.state_of_path hpath
    obtain ⟨n, hn⟩ := hf'.exists_target_of_paths h hfirst hf hpath hown hst' hst
      (hf'.shift_spec h hfirst hst' haction)
    exact absurd hnone ((hf.acts_iff hst).mpr (Or.inl ⟨n, hn⟩))
  | @reduce s' below' next' states' rest' stack input rule left length haction hdrop hlength
      hgoto =>
    obtain ⟨st', hst'⟩ := hf'.state_of_path hpath
    obtain ⟨r, hr, rfl, rfl, rfl, _, hmem⟩ := hf'.reduce_spec h hfirst hst' haction
    obtain ⟨r', hr', hid, hitem', _⟩ := complete_item h (hf'.fits h hfirst hst') hmem
    have hsame := h.eq_of_id_eq hr' hr hid
    subst hsame
    -- Without merging the rule is complete here too, but was begun without the terminal.
    have hitem : ⟨r'.id, r'.right.length⟩ ∈ st.items :=
      (core_eq_iff.mp (hf.items_core_eq_of_paths h hfirst hf' hown hpath hst hst') _).mp hitem'
    obtain ⟨_, _, sb, below, stb, hbegun, hstb, _, hkept⟩ :=
      hf.item_on_path h hfirst hr' _ hown hst hitem
    have hunexpected : upcoming input ∉ stb.items.lookaheads (Item.start r'.id) := fun ht =>
      hf.not_mem_lookaheads_of_blocked h hst hnone hr' (hkept _ ht)
    -- The nonterminal can be read there, since the merged automaton reads it.
    obtain ⟨_, _, n, hdropped, hn⟩ :=
      hf'.exists_goto_of_paths h hfirst hf hpath hown hlength hdrop hgoto
    obtain ⟨rfl, rfl⟩ := List.cons.inj (hbegun.symm.trans hdropped)
    rw [hf.goto_eq hstb] at hn
    obtain ⟨stn, hstn⟩ := (hf.target_state hstb hn).1
    have hownbelow := hown.drop hlength
    simp only at hownbelow
    rw [hbegun] at hownbelow
    refine ⟨n, sb :: below, stn, Path.edge (x := .nonterminal r'.left) hownbelow hstb hn, hstn, ?_⟩
    by_contra hacts
    exact hunexpected (hf.mem_lookaheads_of_acts h hfirst hclosed hstb hr' hn hstn hacts)

/-- If nothing can be done without merging, a merged automaton does not accept the input. -/
theorem not_accepting_of_blocked (havoid : g.AvoidsReserved) (h : g.Augmented)
    (hfirst : first.Within g) (hf : a.Faithful g first .canonical kernel)
    (hf' : b.Faithful g first mode kernel') (hpath : b.Path c.states c.stack)
    (hblocked : a.Blocked c.stack (upcoming c.input)) : ¬ Accepting b.table c := by
  rintro ⟨s', states', hstates, haction⟩
  rw [hstates] at hpath
  obtain ⟨s, states, st, hown, hst, hnone⟩ := hblocked
  obtain ⟨st', hst'⟩ := hf'.state_of_path hpath
  have hmem := hf'.accept_spec h hfirst hst' haction
  obtain ⟨_, hend⟩ := hf'.path_of_accept havoid h hfirst hpath hst' hmem
  obtain ⟨r, hr, hid, hitem', _⟩ := complete_item h (hf'.fits h hfirst hst') hmem
  have hitem : ⟨r.id, r.right.length⟩ ∈ st.items :=
    (core_eq_iff.mp (hf.items_core_eq_of_paths h hfirst hf' hown hpath hst hst') _).mp hitem'
  obtain ⟨hle, _, sb, below, stb, hbegun, hstb, hstart, hkept⟩ :=
    hf.item_on_path h hfirst hr _ hown hst hitem
  have hownbelow := hown.drop hle
  rw [hbegun] at hownbelow
  rw [hid] at hstart
  obtain ⟨rfl, _, _⟩ := hf.path_of_augmented havoid h hfirst hownbelow hstb hstart
  refine hf.not_mem_lookaheads_of_blocked h hst hnone hr (hkept _ ?_)
  rw [hid, show upcoming c.input = endOfInput from hend]
  exact hf.endOfInput_mem_initial h hstb

end Faithful
end Automaton
end ParserGen
