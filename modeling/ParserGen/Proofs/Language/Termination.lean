import ParserGen.Proofs.Acyclic
import ParserGen.Proofs.Automaton.Coverage
import ParserGen.Proofs.Automaton.Twins
import ParserGen.Proofs.Engine.Reductions
import ParserGen.Proofs.Grammar.Beginnings
import ParserGen.Proofs.Language.Completeness

/-!
# Termination without conflicts

A parser without conflicts has at most one thing to do.  If what is ahead begins the symbols after a
marker of the state on top, it has to come to shift that terminal.  Otherwise the symbols after the
marker of some item can all vanish, and the parser comes to reduce by the rule of that item.  Then
the stack gets shorter, unless the marker stood behind the first symbol only.  In this case the
symbol on top is replaced by the left-hand side of a rule that consists of it and of symbols that
vanish.

Such replacements do not go round in a circle.  Each of them is made with a lookahead that its rule
was begun with in some state, even if it is not this one, because states are merged.  In a state
where the last rule of a circle was begun with the lookahead, all rules of the circle were, and a
parser that has nothing below that state on its stack would go round in it.  But that parser
settles.

Main results:

- Theorem `Automaton.ConflictFree.settles_of_begins`: a parser settles if what is ahead begins the
  symbols after a marker.
- Theorem `Automaton.ConflictFree.acyclic_climbs`: symbols do not replace one another in a circle.
- Theorem `Automaton.ConflictFree.settles_of_path`: whatever is on the stacks, a parser settles.
- Theorem `Automaton.terminates_of_no_conflicts`: without conflicts an engine accepts or rejects
  every input.
-/

namespace ParserGen

open ItemSet

namespace Automaton

/-- An automaton without conflicts, with all that its construction guarantees. -/
structure ConflictFree (g : Grammar) (first : FirstTable) (mode : MergeMode) (a : Automaton)
    (kernel : Nat → ItemSet) : Prop where
  avoids : g.AvoidsReserved
  augmented : g.Augmented
  within : first.Within g
  closed : first.Closed g
  truthful : first.Truthful g
  faithful : a.Faithful g first mode kernel
  none : a.conflicts = []

theorem conflictFree_of_generate {declarations : List Declaration} {g : Grammar} {mode : MergeMode}
    {a : Automaton} (hg : Grammar.define declarations = .ok g) (havoid : g.AvoidsReserved)
    (hrun : (generate mode g).result = .ok a) (hnone : a.conflicts = []) :
    ∃ kernel, ConflictFree g (FirstTable.ofGrammar g) mode a kernel := by
  have h := Grammar.augmented_of_define hg
  obtain ⟨kernel, hf⟩ := faithful_of_generate h hrun
  exact ⟨kernel, havoid, h, FirstTable.within_ofGrammar g, closed_of_generate hrun,
    FirstTable.truthful_ofGrammar g, hf, hnone⟩

/-- A state began with `t` a rule with the left-hand side `y` that consists of `x` and of symbols
that can vanish.  On top of that state `x` is replaced by `y` when `t` is ahead. -/
def ReplacedIn (g : Grammar) (st : State) (t : Nat) (x y : StackSymbol Nat Nat) : Prop :=
  ∃ r ∈ g.ruleList, ∃ rest, r.id ≠ augmentedRule ∧ r.right = x.toSymbol :: rest ∧
    g.Yields rest [] ∧ y = .nonterminal r.left ∧ t ∈ st.items.lookaheads (Item.start r.id)

/-- The same in some state. -/
def Replaced (g : Grammar) (a : Automaton) (t : Nat) (x y : StackSymbol Nat Nat) : Prop :=
  ∃ (s : Nat) (st : State), a.states[s]? = some st ∧ ReplacedIn g st t x y

/-- The symbols that others are replaced by. -/
def replacements (g : Grammar) : Finset (StackSymbol Nat Nat) :=
  (g.ruleList.map fun r => .nonterminal r.left).toFinset

theorem Replaced.mem_replacements {g : Grammar} {a : Automaton} {t : Nat}
    {x y : StackSymbol Nat Nat} (h : Replaced g a t x y) : y ∈ replacements g := by
  obtain ⟨_, _, _, r, hr, _, _, _, _, rfl, _⟩ := h
  exact List.mem_toFinset.mpr (List.mem_map.mpr ⟨r, hr, rfl⟩)

variable {g : Grammar} {first : FirstTable} {mode : MergeMode} {a : Automaton}
  {kernel : Nat → ItemSet} {s : Nat} {states : List Nat} {stack : List (StackSymbol Nat Nat)}
  {st : State} {input : List Nat}

namespace ConflictFree

variable (ha : ConflictFree g first mode a kernel)
include ha

/-! ## Finishing a rule -/

/-- If the symbols after a marker can vanish, the parser comes to the end of the rule. -/
theorem exists_complete (states : List Nat) (stack : List (StackSymbol Nat Nat))
    (hst : a.states[s]? = some st) {r : Rule} (hr : r ∈ g.ruleList) {m : Nat}
    (hle : m ≤ r.right.length) (hrest : g.Yields (r.right.drop m) [])
    (hi : upcoming input ∈ st.items.lookaheads ⟨r.id, m⟩) :
    ∃ s' below stack',
      Relation.ReflTransGen (Reduction a.table) ⟨s :: states, stack, input⟩
        ⟨s' :: below, stack', input⟩ ∧
      a.table.action s' input.head? = (reduceOrAccept r.id).toParse g ∧
      (s' :: below).drop r.right.length = (s :: states).drop m ∧
      stack'.drop r.right.length = stack.drop m ∧
      (r.right.length ≤ stack'.length ↔ m ≤ stack.length) := by
  have hitem : (⟨r.id, m⟩ : Item).rest g = r.right.drop m :=
    Item.rest_of_rule_eq ha.augmented hr rfl
  obtain ⟨rules, hrules⟩ := hrest.exists_rules
  have hby : MovesBy a ⟨s :: states, stack, [] ++ input⟩ ⟨r.id, m⟩ (r.right.drop m).length rules
      input :=
    ha.faithful.moves_by ha.avoids ha.augmented ha.within ha.closed ha.none hrules hst hitem hi
  obtain ⟨events, s', below, stack', st', hmoves, _, hstates, hlength, hstack, hst', hcomplete⟩ :=
    hby
  have hsum : r.right.length = (r.right.drop m).length + m := by
    rw [List.length_drop]
    omega
  simp only at hstates hstack
  rw [Nat.add_comm, ← hsum] at hcomplete
  refine ⟨s', below, stack', hmoves.reductions rfl,
    ha.faithful.action_of_complete ha.augmented ha.none hst' hr hcomplete, ?_, ?_, ?_⟩
  · rw [hsum, ← List.drop_drop, hstates]
  · rw [hsum, ← List.drop_drop, hstack]
  · rw [← hstack, List.length_drop]
    omega

/-- A rule that can be finished is reduced by, if there is somewhere to go. -/
theorem reductions_of_complete (states : List Nat) (stack : List (StackSymbol Nat Nat))
    (hst : a.states[s]? = some st) {r : Rule} (hr : r ∈ g.ruleList) (hne : r.id ≠ augmentedRule)
    {m : Nat} (hle : m ≤ r.right.length)
    (hrest : g.Yields (r.right.drop m) []) (hi : upcoming input ∈ st.items.lookaheads ⟨r.id, m⟩)
    (hlength : m ≤ stack.length) {below next : Nat} {rest : List Nat}
    (hdrop : (s :: states).drop m = below :: rest) (hgoto : a.table.goto below r.left = some next) :
    Relation.TransGen (Reduction a.table) ⟨s :: states, stack, input⟩
      ⟨next :: below :: rest, .nonterminal r.left :: stack.drop m, input⟩ := by
  obtain ⟨s', below', stack', hreductions, haction, hstates, hstack, hiff⟩ :=
    ha.exists_complete states stack hst hr hle hrest hi
  rw [reduceOrAccept, if_neg hne, Action.toParse, ha.augmented.mem_ruleList.mp hr] at haction
  have hmove := Move.reduce haction (hstates.trans hdrop) (hiff.mpr hlength) hgoto
  rw [hstack] at hmove
  exact .tail' hreductions ⟨_, _, hmove⟩

/-- A parser that can finish a rule settles if it does after the reduction by that rule. -/
theorem settles_of_complete (hst : a.states[s]? = some st) {r : Rule} (hr : r ∈ g.ruleList)
    {m : Nat} (hle : m ≤ r.right.length) (hrest : g.Yields (r.right.drop m) [])
    (hi : upcoming input ∈ st.items.lookaheads ⟨r.id, m⟩)
    (hnext : ∀ below rest next, r.id ≠ augmentedRule → m ≤ stack.length →
      (s :: states).drop m = below :: rest → a.table.goto below r.left = some next →
        Settles a.table ⟨next :: below :: rest, .nonterminal r.left :: stack.drop m, input⟩) :
    Settles a.table ⟨s :: states, stack, input⟩ := by
  obtain ⟨s', below', stack', hreductions, haction, hstates, hstack, hiff⟩ :=
    ha.exists_complete states stack hst hr hle hrest hi
  refine .of_reductions hreductions (Acc.intro _ fun c' hred => ?_)
  obtain ⟨_, _, _, _, _, below, next, rest, htop, haction', hdrop, hlength, hgoto, rfl⟩ :=
    hred.exists_action
  obtain ⟨rfl, rfl⟩ := List.cons.inj htop
  have hboth := haction.symm.trans haction'
  by_cases hne : r.id = augmentedRule
  · rw [reduceOrAccept, if_pos hne] at hboth
    cases hboth
  · rw [reduceOrAccept, if_neg hne, Action.toParse, ha.augmented.mem_ruleList.mp hr] at hboth
    cases hboth
    rw [hstack]
    exact hnext below rest next hne (hiff.mp hlength) (hstates.symm.trans hdrop) hgoto

/-! ## Terminals that begin what comes next -/

/-- A parser settles if what is ahead begins the symbols after a marker of the state on top. -/
theorem settles_of_begins {symbols : List Symbol} (hbegins : g.Begins symbols (upcoming input))
    (hst : a.states[s]? = some st) {i : Item} (hi : i ∈ st.items) (hrest : i.rest g = symbols) :
    Settles a.table ⟨s :: states, stack, input⟩ := by
  generalize ht : upcoming input = t at hbegins
  induction hbegins generalizing s states stack st i with
  | @terminal t symbols =>
    -- The terminal is shifted.
    have hne : upcoming input ≠ endOfInput :=
      ht ▸ ha.avoids.ne_endOfInput ha.augmented (hrest ▸ List.mem_cons_self)
    obtain ⟨hnext, _⟩ := Item.rest_eq_cons_iff.mp hrest
    obtain ⟨next, htarget⟩ := (ha.faithful.exists_target_iff hst).mpr ⟨i, hi, hnext⟩
    have hshift := ha.faithful.action_of_next ha.augmented ha.none hst htarget
    rw [← ht, ← head?_eq_upcoming hne] at hshift
    refine .of_not_reduction fun c' hred => ?_
    obtain ⟨_, _, _, _, _, _, _, _, htop, hreduce, _⟩ := hred.exists_action
    obtain ⟨rfl, _⟩ := List.cons.inj htop
    cases hshift.symm.trans hreduce
  | inside hr _ ih =>
    have hstart := ha.faithful.start_mem ha.augmented ha.within hst hi hrest hr
    exact ih hst hstart (Item.rest_start ha.augmented hr) ht
  | @after r symbols t hr hright hbegins ih =>
    have hahead : upcoming input ∈ st.items.lookaheads (Item.start r.id) := by
      refine ha.faithful.start_lookaheads ha.augmented ha.within hst hi hrest hr ?_
      exact FirstTable.mem_firstWith.mpr (Or.inl (ht ▸ ha.closed.mem_firstOfString hbegins))
    obtain ⟨hnext, hadvance⟩ := Item.rest_eq_cons_iff.mp hrest
    obtain ⟨next, htarget⟩ := (ha.faithful.exists_target_iff hst).mpr ⟨i, hi, hnext⟩
    obtain ⟨st', hst'⟩ := (ha.faithful.target_state hst htarget).1
    have hmem := ha.faithful.advance_mem ha.augmented hst htarget hst' hi hnext
    have hreductions := ha.reductions_of_complete states stack hst hr
      (ha.avoids.id_ne ha.augmented hrest hr) (Nat.zero_le _) hright hahead (Nat.zero_le _) rfl
      ((ha.faithful.goto_eq hst r.left).trans htarget)
    exact .of_reductions hreductions.to_reflTransGen (ih hst' hmem hadvance ht)

/-- Above a state that began a rule with what is ahead, a parser settles once it has come to the
left-hand side of the rule, if it has nothing below that state on its stack. -/
theorem settles_of_begun (hst : a.states[s]? = some st) {r : Rule} (hr : r ∈ g.ruleList)
    (hne : r.id ≠ augmentedRule) (hbegun : upcoming input ∈ st.items.lookaheads (Item.start r.id))
    {next : Nat} (htarget : st.target? (.nonterminal r.left) = some next) :
    Settles a.table ⟨[next, s], [.nonterminal r.left], input⟩ := by
  rw [ha.faithful.items hst, mem_lookaheads_closure ha.augmented.keyed ha.within] at hbegun
  generalize ht : upcoming input = t at hbegun
  generalize hi : Item.start r.id = i at hbegun
  induction hbegun generalizing r next with
  | kernel hmem =>
    have hkernel := mem_of_mem_lookaheads hmem
    exact absurd (ha.faithful.eq_augmentedRule ha.augmented hst (hi ▸ hkernel)) hne
  | @begins i r' rest t hasks hrest hr' hbegins =>
    obtain rfl : r = r' := ha.augmented.eq_of_id_eq hr hr' (Item.start_inj.mp hi)
    have hmem : i ∈ st.items := by
      rw [ha.faithful.items hst, mem_closure ha.augmented.keyed ha.within]
      exact hasks
    obtain ⟨hnext, hadvance⟩ := Item.rest_eq_cons_iff.mp hrest
    obtain ⟨st', hst'⟩ := (ha.faithful.target_state hst htarget).1
    exact ha.settles_of_begins (ht ▸ ha.truthful.begins hbegins) hst'
      (ha.faithful.advance_mem ha.augmented hst htarget hst' hmem hnext) hadvance
  | @passed i r' rest t hpassed hrest hr' hnullable ih =>
    obtain rfl : r = r' := ha.augmented.eq_of_id_eq hr hr' (Item.start_inj.mp hi)
    have hahead : upcoming input ∈ st.items.lookaheads i := by
      rw [ha.faithful.items hst, mem_lookaheads_closure ha.augmented.keyed ha.within]
      exact ht ▸ hpassed
    obtain ⟨hnext, hadvance⟩ := Item.rest_eq_cons_iff.mp hrest
    obtain ⟨st', hst'⟩ := (ha.faithful.target_state hst htarget).1
    have hahead' := ha.faithful.advance_lookaheads ha.augmented hst htarget hst' hnext hahead
    obtain ⟨asking, hasking, hid, hlt, _⟩ := i.exists_rule_of_next? ha.augmented hnext
    obtain ⟨_, m⟩ := i
    obtain rfl := hid
    have hvanish : g.Yields (asking.right.drop (m + 1)) [] := by
      rw [Item.rest_of_rule_eq ha.augmented hasking rfl] at hadvance
      exact hadvance ▸ ha.truthful.yields_nil hnullable
    refine ha.settles_of_complete hst' hasking hlt hvanish hahead' ?_
    intro below below' next' hne' hlength hdrop hgoto
    -- More than one symbol cannot be replaced, so that the asking item starts its rule.
    obtain rfl : m = 0 := Nat.le_zero.mp (Nat.le_of_succ_le_succ hlength)
    obtain ⟨rfl, rfl⟩ := List.cons.inj hdrop
    exact ih hasking hne' ((ha.faithful.goto_eq hst _).symm.trans hgoto) ht rfl

/-! ## Symbols that replace one another -/

/-- A state that began a rule with a lookahead began the rules for the first symbol with it, if the
symbols after that one can vanish. -/
theorem replacedIn_of_replaced (hst : a.states[s]? = some st) {t : Nat}
    {x y z : StackSymbol Nat Nat} (hxy : Replaced g a t x y) (hyz : ReplacedIn g st t y z) :
    ReplacedIn g st t x y := by
  obtain ⟨_, _, _, r, hr, rest, hne, hright, hvanish, rfl, _⟩ := hxy
  obtain ⟨r', hr', rest', _, hright', hvanish', _, ht⟩ := hyz
  refine ⟨r, hr, rest, hne, hright, hvanish, rfl, ?_⟩
  have hrest : (Item.start r'.id).rest g = .nonterminal r.left :: rest' :=
    (Item.rest_start ha.augmented hr').trans hright'
  refine ha.faithful.start_lookaheads ha.augmented ha.within hst (mem_of_mem_lookaheads ht) hrest hr
    (FirstTable.mem_firstWith.mpr (Or.inr ⟨?_, ht⟩))
  exact (ha.closed.first_of_yields hvanish').1 rfl

/-- If the last one of some replacements can be made in a state, all of them can. -/
theorem transGen_replacedIn (hst : a.states[s]? = some st) {t : Nat} {x y z : StackSymbol Nat Nat}
    (hxy : Relation.ReflTransGen (Replaced g a t) x y) (hyz : ReplacedIn g st t y z) :
    Relation.TransGen (ReplacedIn g st t) x z := by
  induction hxy using Relation.ReflTransGen.head_induction_on with
  | refl => exact .single hyz
  | head hreplaced _ ih =>
    obtain ⟨_, hfirst, _⟩ := Relation.TransGen.head'_iff.mp ih
    exact .head (ha.replacedIn_of_replaced hst hreplaced hfirst) ih

/-- A parser that has nothing below the state on its stack makes the replacement. -/
theorem reductions_of_replacedIn (hst : a.states[s]? = some st) {x y : StackSymbol Nat Nat}
    (h : ReplacedIn g st (upcoming input) x y) :
    ∃ next next', st.target? x.toSymbol = some next ∧ st.target? y.toSymbol = some next' ∧
      Relation.TransGen (Reduction a.table) ⟨[next, s], [x], input⟩ ⟨[next', s], [y], input⟩ := by
  obtain ⟨r, hr, rest, hne, hright, hvanish, rfl, ht⟩ := h
  have hrest : (Item.start r.id).rest g = x.toSymbol :: rest :=
    (Item.rest_start ha.augmented hr).trans hright
  obtain ⟨next, st', htarget, hst', _, hi⟩ :=
    ha.faithful.exists_next ha.augmented hst hrest ht
  obtain ⟨next', htarget'⟩ := ha.faithful.exists_target_of_start ha.augmented ha.within hst hr hne
    (mem_of_mem_lookaheads ht)
  refine ⟨next, next', htarget, htarget', ?_⟩
  have hdrop : r.right.drop 1 = rest := by rw [hright, List.drop_one, List.tail_cons]
  have hle : 1 ≤ r.right.length := by simp [hright]
  exact ha.reductions_of_complete [s] [x] hst' hr hne hle (hdrop ▸ hvanish) hi (Nat.le_refl 1) rfl
    ((ha.faithful.goto_eq hst r.left).trans htarget')

theorem reductions_of_transGen (hst : a.states[s]? = some st) {x y : StackSymbol Nat Nat}
    (h : Relation.TransGen (ReplacedIn g st (upcoming input)) x y) :
    ∃ next next', st.target? x.toSymbol = some next ∧ st.target? y.toSymbol = some next' ∧
      Relation.TransGen (Reduction a.table) ⟨[next, s], [x], input⟩ ⟨[next', s], [y], input⟩ := by
  induction h with
  | single hxy => exact ha.reductions_of_replacedIn hst hxy
  | tail _ hyz ih =>
    obtain ⟨next, middle, htarget, hmiddle, hreductions⟩ := ih
    obtain ⟨middle', next', hmiddle', htarget', hreductions'⟩ := ha.reductions_of_replacedIn hst hyz
    obtain rfl := Option.some.inj (hmiddle.symm.trans hmiddle')
    exact ⟨next, next', htarget, htarget', hreductions.trans hreductions'⟩

/-- Symbols do not replace one another in a circle. -/
theorem acyclic_replaced (t : Nat) : Acyclic (Replaced g a t) := by
  intro x hcycle
  obtain ⟨y, hxy, s, st, hst, hyx⟩ := Relation.TransGen.tail'_iff.mp hcycle
  have hsettles : ∀ next, st.target? x.toSymbol = some next →
      Settles a.table ⟨[next, s], [x], [t]⟩ := by
    obtain ⟨r, hr, _, hne, _, _, rfl, ht⟩ := hyx
    have hbegun : upcoming [t] ∈ st.items.lookaheads (Item.start r.id) := ht
    exact fun next => ha.settles_of_begun hst hr hne hbegun
  have hloop : Relation.TransGen (ReplacedIn g st (upcoming [t])) x x :=
    ha.transGen_replacedIn hst hxy hyx
  obtain ⟨next, next', htarget, htarget', hreductions⟩ := ha.reductions_of_transGen hst hloop
  obtain rfl := Option.some.inj (htarget.symm.trans htarget')
  exact (hsettles next htarget).not_cyclic hreductions

/-! ## Parsers on a path -/

/-- The first stack is shorter than the second, or is the second with the symbol on top replaced. -/
def Lower (g : Grammar) (a : Automaton) (t : Nat) (stack' stack : List (StackSymbol Nat Nat)) :
    Prop :=
  stack'.length < stack.length ∨
    ∃ x y below, stack = x :: below ∧ stack' = y :: below ∧ Replaced g a t x y

theorem wellFounded_lower (t : Nat) : WellFounded (Lower g a t) := by
  let rank : List (StackSymbol Nat Nat) → Nat × Nat := fun stack =>
    (stack.length, (stack.head?.map (height (Replaced g a t) (replacements g))).getD 0)
  refine Subrelation.wf (r := InvImage (Prod.Lex (· < ·) (· < ·)) rank) ?_
    (InvImage.wf rank (WellFounded.prod_lex Nat.lt_wfRel.wf Nat.lt_wfRel.wf))
  rintro stack' stack (hshorter | ⟨x, y, below, rfl, rfl, hxy⟩)
  · exact Prod.Lex.left _ _ hshorter
  · refine Prod.Lex.right _ ?_
    exact height_lt_height (ha.acyclic_replaced t) (fun _ _ h => h.mem_replacements) hxy

/-- If the first symbol of a rule is on top of the stack and the others can vanish, the left-hand
side of the rule replaces that symbol. -/
theorem replaced_of_target (hst : a.states[s]? = some st) {x : StackSymbol Nat Nat} {top : Nat}
    (htarget : st.target? x.toSymbol = some top) {r : Rule} (hr : r ∈ g.ruleList)
    (hne : r.id ≠ augmentedRule)
    (hvanish : g.Yields (r.right.drop 1) []) {t : Nat}
    (hk : t ∈ (kernel top).lookaheads ⟨r.id, 1⟩) : Replaced g a t x (.nonterminal r.left) := by
  obtain ⟨sttop, hsttop⟩ := (ha.faithful.target_state hst htarget).1
  have hmem : ⟨r.id, 1⟩ ∈ sttop.items := by
    rw [ha.faithful.items hsttop]
    exact (le_closure ha.augmented.keyed _).1 _ (mem_of_mem_lookaheads hk)
  obtain ⟨i, _, hx, hi⟩ := ha.faithful.exists_of_marker_ne_zero ha.augmented ha.within hst htarget
    hsttop hmem Nat.one_ne_zero
  obtain rfl : Item.start r.id = i := Item.advance_inj.mp hi
  obtain ⟨rest, hrest⟩ := Item.next?_eq_some_iff.mp hx
  rw [Item.rest_start ha.augmented hr] at hrest
  rw [hrest, List.drop_one, List.tail_cons] at hvanish
  obtain ⟨s', st', hst', hbegun⟩ :=
    ha.faithful.exists_begun ha.augmented ha.within hsttop hk
  exact ⟨s', st', hst', r, hr, rest, hne, hrest, hvanish, rfl, hbegun⟩

/-- A parser whose top kernel has an item that can be finished settles, if parsers with lower stacks
do. -/
theorem settles_of_lower (hpath : a.Path (s :: states) stack) (hst : a.states[s]? = some st)
    (hlower : ∀ {s' states' stack'}, a.Path (s' :: states') stack' →
      Lower g a (upcoming input) stack' stack → Settles a.table ⟨s' :: states', stack', input⟩)
    {r : Rule} (hr : r ∈ g.ruleList) {m : Nat} (hle : m ≤ r.right.length)
    (hvanish : g.Yields (r.right.drop m) [])
    (hk : upcoming input ∈ (kernel s).lookaheads ⟨r.id, m⟩) :
    Settles a.table ⟨s :: states, stack, input⟩ := by
  have hi : upcoming input ∈ st.items.lookaheads ⟨r.id, m⟩ := by
    rw [ha.faithful.items hst]
    exact (le_closure ha.augmented.keyed _).2 _ _ hk
  refine ha.settles_of_complete hst hr hle hvanish hi ?_
  intro below rest next hne hlength hdrop hgoto
  have hbelow := hpath.drop hlength
  rw [hdrop] at hbelow
  obtain ⟨stb, hstb⟩ := ha.faithful.state_of_path hbelow
  rw [ha.faithful.goto_eq hstb] at hgoto
  refine hlower (Path.edge (x := .nonterminal r.left) hbelow hstb hgoto) ?_
  match m with
  | 0 => exact absurd (ha.faithful.eq_augmentedRule ha.augmented hst (mem_of_mem_lookaheads hk)) hne
  | 1 =>
    cases hpath with
    | start => cases hlength
    | edge _ hst' htarget =>
      exact Or.inr ⟨_, _, _, rfl, rfl, ha.replaced_of_target hst' htarget hr hne hvanish hk⟩
  | m + 2 =>
    refine Or.inl ?_
    rw [List.length_cons, List.length_drop]
    omega

/-- Whatever is on the stacks, a parser settles. -/
theorem settles_of_path (hpath : a.Path (s :: states) stack) :
    Settles a.table ⟨s :: states, stack, input⟩ := by
  induction stack using (ha.wellFounded_lower (upcoming input)).induction generalizing s states with
  | _ stack ih =>
    by_cases hred : ∃ c', Reduction a.table ⟨s :: states, stack, input⟩ c'
    · obtain ⟨c', hred⟩ := hred
      obtain ⟨_, _, _, _, _, _, _, _, htop, haction, _⟩ := hred.exists_action
      obtain ⟨rfl, rfl⟩ := List.cons.inj htop
      obtain ⟨st, hst⟩ := ha.faithful.state_of_path hpath
      -- Something in the kernel of the state on top has to do with what is ahead.
      obtain ⟨r, hr, rfl, _, _, _, hmem⟩ :=
        ha.faithful.reduce_spec ha.augmented ha.within hst haction
      obtain ⟨i, hi, hahead⟩ := ha.faithful.exists_ahead_of_acts ha.augmented ha.within hst
        ((ha.faithful.acts_iff hst).mpr (Or.inr ⟨_, hmem⟩))
      rw [ha.faithful.items hst] at hi hahead
      obtain ⟨k, hk, hahead⟩ :=
        exists_ahead_of_closure ha.augmented ha.within ha.closed hi hahead
      have hkmem : k ∈ st.items := by
        rw [ha.faithful.items hst]
        exact (le_closure ha.augmented.keyed _).1 _ hk
      rcases FirstTable.mem_firstWith.mp hahead with hbegins | ⟨hnullable, hpassed⟩
      · exact ha.settles_of_begins (ha.truthful.begins hbegins) hst hkmem rfl
      · obtain ⟨rule, m⟩ := k
        obtain ⟨r', hr', hid, hle⟩ := ha.faithful.fits ha.augmented ha.within hst _ hkmem
        obtain rfl := hid
        rw [Item.rest_of_rule_eq ha.augmented hr' rfl] at hnullable
        exact ha.settles_of_lower hpath hst (fun hpath' hlow => ih _ hlow hpath') hr' hle
          (ha.truthful.yields_nil hnullable) hpassed
    · exact .of_not_reduction fun c' hred' => hred ⟨c', hred'⟩

/-- A parser that makes no move accepts or fails. -/
theorem accepting_or_failing {c : Configuration Nat Nat Nat} (hpath : a.Path c.states c.stack)
    (hfinal : ∀ e c', ¬ Move a.table c e c') : Accepting a.table c ∨ Failing a.table c := by
  obtain ⟨states, stack, input⟩ := c
  obtain ⟨s, states, rfl⟩ := hpath.exists_cons
  obtain ⟨st, hst⟩ := ha.faithful.state_of_path hpath
  rcases ha.faithful.action_cases ha.augmented ha.within hst input.head? with
    ⟨next, hshift, htarget⟩ | ⟨r, hr, hreduce, hne, hmem⟩ | ⟨haccept, _⟩ | hfail
  · obtain ⟨i, _, hnext⟩ := (ha.faithful.exists_target_iff hst).mp ⟨next, htarget⟩
    obtain ⟨rest, hrest⟩ := Item.next?_eq_some_iff.mp hnext
    have hne := ha.avoids.ne_endOfInput ha.augmented (hrest ▸ List.mem_cons_self)
    cases input with
    | nil => exact absurd rfl hne
    | cons t input => exact absurd (.shift hshift) (hfinal _ _)
  · obtain ⟨r', hr', hid, hitem, _⟩ :=
      Faithful.complete_item ha.augmented (ha.faithful.fits ha.augmented ha.within hst) hmem
    obtain rfl := ha.augmented.eq_of_id_eq hr' hr hid
    obtain ⟨hlength, _, below, rest, stb, hdrop, hstb, hstart, _⟩ :=
      ha.faithful.item_on_path ha.augmented ha.within hr' _ hpath hst hitem
    obtain ⟨next, htarget⟩ :=
      ha.faithful.exists_target_of_start ha.augmented ha.within hstb hr' hne hstart
    have hgoto := (ha.faithful.goto_eq hstb r'.left).trans htarget
    exact absurd (.reduce hreduce hdrop hlength hgoto) (hfinal _ _)
  · exact Or.inl ⟨s, states, rfl, haccept⟩
  · exact Or.inr ⟨s, states, rfl, hfail⟩

end ConflictFree

/-- Without conflicts an engine that is called often enough accepts or rejects its input, whatever
it is. -/
theorem terminates_of_no_conflicts {declarations : List Declaration}
    (hg : Grammar.define declarations = .ok g) (havoid : g.AvoidsReserved)
    (hrun : (generate mode g).result = .ok a) (hnone : a.conflicts = []) (w : List Nat) :
    ∃ limit answer, ∀ more, limit ≤ more → a.accepts? more w = some (.ok answer) := by
  obtain ⟨kernel, ha⟩ := conflictFree_of_generate hg havoid hrun hnone
  have hsettles : ∀ {c : Configuration Nat Nat Nat}, a.Path c.states c.stack →
      Settles a.table c := by
    rintro ⟨states, stack, input⟩ hpath
    obtain ⟨s, states, rfl⟩ := hpath.exists_cons
    exact ha.settles_of_path hpath
  obtain ⟨events, final, hmoves, hpath, hfinal⟩ :=
    exists_final_of_settles (motive := fun c => a.Path c.states c.stack) (c := startConfiguration w)
      (fun hpath hmove => ha.faithful.path_of_move ha.augmented ha.within hpath hmove) hsettles
      .start
  obtain ⟨hactive, hsettle⟩ := a.initial_settled
  rcases ha.accepting_or_failing hpath hfinal with haccepting | hfailing
  · obtain ⟨limit, haccepted⟩ := Run.accepted_of_moves hmoves haccepting hactive hsettle rfl
    have hanswer : a.accepts? limit w = some (.ok true) := accepts?_eq_true_iff.mpr haccepted
    exact ⟨limit, true, fun more hle => accepts?_mono hle hanswer⟩
  · obtain ⟨limit, hrejected⟩ := Run.rejected_of_moves hmoves hfailing hactive hsettle rfl
    have hanswer : a.accepts? limit w = some (.ok false) := by
      rw [accepts?, run, Run.ofInput, hrejected]
    exact ⟨limit, false, fun more hle => accepts?_mono hle hanswer⟩

set_option maxRecDepth 100000 in
theorem terminates_of_no_conflicts_brackets :
    ∃ g a, Grammar.define brackets = .ok g ∧ g.AvoidsReserved ∧
      (generate .lalr g).result = .ok a ∧ a.conflicts = [] ∧
      ∃ limit answer, ∀ more, limit ≤ more → a.accepts? more [1, 1, 2] = some (.ok answer) := by
  have hsome : (ofDeclarations .lalr brackets).any
      (fun built => decide (built.1.AvoidsReserved ∧ built.2.conflicts = [])) = true := by
    decide +kernel
  obtain ⟨g, a, hg, ha, hp⟩ := exists_of_ofDeclarations hsome
  rw [decide_eq_true_eq] at hp
  obtain ⟨havoid, hnone⟩ := hp
  exact ⟨g, a, hg, havoid, ha, hnone, terminates_of_no_conflicts hg havoid ha hnone _⟩

end Automaton
end ParserGen
