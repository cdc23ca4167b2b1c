import ParserGen.Proofs.Automaton.Actions
import ParserGen.Proofs.Automaton.Resolution
import ParserGen.Proofs.Engine.Machine

/-!
# Items along a path

The states on the stack of a parser form a path through the automaton, whose symbols are those on
the other stack.  An item of the state on top says what the topmost symbols are, and in which state
below them its rule was begun.

Main results:

- Theorem `Automaton.Faithful.path_of_move`: moves keep the states on a path.
- Theorem `Automaton.Faithful.item_on_path`: what an item says about the stacks.
- Theorems `Automaton.Faithful.shift_spec`, `reduce_spec` and `accept_spec`: what a move says about
  the items of the state on top.
-/

namespace ParserGen

open ItemSet

/-- The terminal that the rest of the input begins with, or the end of input. -/
def upcoming (input : List Nat) : Nat := input.head?.getD endOfInput

/-- If the upcoming terminal is not the end of input, it is the next one. -/
theorem head?_eq_upcoming {input : List Nat} (h : upcoming input ≠ endOfInput) :
    input.head? = some (upcoming input) := by
  cases input with
  | nil => exact absurd rfl h
  | cons t rest => rfl

/-- A symbol on a parser's stack as a symbol of the grammar. -/
def StackSymbol.toSymbol : StackSymbol Nat Nat → Symbol
  | .token t => .terminal t
  | .nonterminal n => .nonterminal n

namespace Automaton

variable {g : Grammar} {first : FirstTable} {mode : MergeMode} {a : Automaton}
  {kernel : Nat → ItemSet}

/-- States that follow the edges on the symbols of a stack, from the initial state on. -/
inductive Path (a : Automaton) : List Nat → List (StackSymbol Nat Nat) → Prop
  | start : Path a [initialState] []
  | edge {s t : Nat} {states : List Nat} {stack : List (StackSymbol Nat Nat)} {st : State}
      {x : StackSymbol Nat Nat} : Path a (s :: states) stack → a.states[s]? = some st →
      st.target? x.toSymbol = some t → Path a (t :: s :: states) (x :: stack)

namespace Path

/-- There is always a state on top. -/
theorem exists_cons {states : List Nat} {stack : List (StackSymbol Nat Nat)}
    (h : a.Path states stack) : ∃ s below, states = s :: below := by
  cases h with
  | start => exact ⟨_, _, rfl⟩
  | edge _ _ _ => exact ⟨_, _, rfl⟩

/-- The lower part of a path is a path. -/
theorem drop {states : List Nat} {stack : List (StackSymbol Nat Nat)} (h : a.Path states stack)
    {n : Nat} (hn : n ≤ stack.length) : a.Path (states.drop n) (stack.drop n) := by
  induction h generalizing n with
  | start =>
    rw [Nat.le_zero.mp hn]
    exact .start
  | edge hpath hst htarget ih =>
    cases n with
    | zero => exact .edge hpath hst htarget
    | succ n => exact ih (Nat.le_of_succ_le_succ hn)

end Path

namespace Faithful

/-! ## Items of neighbouring states -/

section Items

variable {s t : Nat} {st st' : State}

/-- An item asks for the starts of the rules of the nonterminal after its marker. -/
theorem start_mem (h : g.Augmented) (hfirst : first.Within g)
    (hf : a.Faithful g first mode kernel) (hst : a.states[s]? = some st) {i : Item} {r : Rule}
    {rest : List Symbol} (hi : i ∈ st.items) (hrest : i.rest g = .nonterminal r.left :: rest)
    (hr : r ∈ g.ruleList) : Item.start r.id ∈ st.items := by
  rw [hf.items hst, mem_closure h.keyed hfirst] at hi ⊢
  exact .start hi hrest hr

/-- The starts of the rules that an item asks for have the lookaheads that can follow there. -/
theorem start_lookaheads (h : g.Augmented) (hfirst : first.Within g)
    (hf : a.Faithful g first mode kernel) (hst : a.states[s]? = some st) {i : Item} {r : Rule}
    {rest : List Symbol} (hi : i ∈ st.items) (hrest : i.rest g = .nonterminal r.left :: rest)
    (hr : r ∈ g.ruleList) {b : Nat} (hb : b ∈ first.firstWith rest (st.items.lookaheads i)) :
    b ∈ st.items.lookaheads (Item.start r.id) := by
  rw [hf.items hst] at hi hb ⊢
  rw [mem_lookaheads_closure h.keyed hfirst]
  rcases FirstTable.mem_firstWith.mp hb with hbegins | ⟨hnullable, hpassed⟩
  · exact .begins ((mem_closure h.keyed hfirst).mp hi) hrest hr hbegins
  · exact .passed ((mem_lookaheads_closure h.keyed hfirst).mp hpassed) hrest hr hnullable

/-- An edge leads to a state that hosts the successor. -/
theorem target_state (hf : a.Faithful g first mode kernel) (hst : a.states[s]? = some st)
    {x : Symbol} (ht : st.target? x = some t) :
    (∃ st', a.states[t]? = some st') ∧
      Hosts mode (kernel t) ((kernel s).successor g first x) := by
  obtain ⟨hlt, hhosts⟩ := hf.targets hst ((hf.target?_iff hst).mp ht)
  exact ⟨state_of_lt hlt, hhosts⟩

/-- Along an edge items move with the markers. -/
theorem advance_mem (h : g.Augmented) (hf : a.Faithful g first mode kernel)
    (hst : a.states[s]? = some st) {x : Symbol} (ht : st.target? x = some t)
    (hst' : a.states[t]? = some st') {i : Item} (hi : i ∈ st.items) (hx : i.next? g = some x) :
    i.advance ∈ st'.items := by
  rw [hf.items hst']
  refine (le_closure h.keyed _).1 _ ((hf.target_state hst ht).2.extends_.mem_iff.mpr ?_)
  exact mem_advanceOver.mpr ⟨i, hf.items hst ▸ hi, hx, rfl⟩

/-- Along an edge lookaheads move with the markers. -/
theorem advance_lookaheads (h : g.Augmented) (hf : a.Faithful g first mode kernel)
    (hst : a.states[s]? = some st) {x : Symbol} (ht : st.target? x = some t)
    (hst' : a.states[t]? = some st') {i : Item} (hx : i.next? g = some x) {b : Nat}
    (hb : b ∈ st.items.lookaheads i) : b ∈ st'.items.lookaheads i.advance := by
  have hcore := (hf.target_state hst ht).2.extends_
  rw [hf.items hst']
  refine (le_closure h.keyed _).2 _ _ (hcore.lookaheads _ _ ?_)
  exact mem_lookaheads_advanceOver.mpr ⟨i, hx, rfl, hf.items hst ▸ hb⟩

/-- A marker that has moved was moved along each edge that leads to the state. -/
theorem exists_of_marker_ne_zero (h : g.Augmented) (hfirst : first.Within g)
    (hf : a.Faithful g first mode kernel) (hst : a.states[s]? = some st) {x : Symbol}
    (ht : st.target? x = some t) (hst' : a.states[t]? = some st') {j : Item}
    (hj : j ∈ st'.items) (hmarker : j.marker ≠ 0) :
    ∃ i ∈ st.items, i.next? g = some x ∧ j = i.advance := by
  rw [hf.items hst', mem_closure h.keyed hfirst] at hj
  rcases hj.mem_or_start with hj | ⟨r, _, rfl⟩
  · have hcore := (hf.target_state hst ht).2.extends_
    rw [hf.items hst]
    exact mem_advanceOver.mp (hcore.mem_iff.mp hj)
  · exact absurd rfl hmarker

/-- Of the items that start a rule, kernels have only that of the augmented one. -/
theorem eq_augmentedRule (h : g.Augmented) (hf : a.Faithful g first mode kernel)
    (hst : a.states[s]? = some st) {rule : Nat} (hi : Item.start rule ∈ kernel s) :
    rule = augmentedRule :=
  (hf.arises hst).eq_augmentedRule h hi rfl

/-- Where a rule is begun there is an edge on its left-hand side, except for the augmented rule. -/
theorem exists_target_of_start (h : g.Augmented) (hfirst : first.Within g)
    (hf : a.Faithful g first mode kernel) (hst : a.states[s]? = some st) {r : Rule}
    (hr : r ∈ g.ruleList) (hne : r.id ≠ augmentedRule) (hstart : Item.start r.id ∈ st.items) :
    ∃ t, st.target? (.nonterminal r.left) = some t := by
  rw [hf.items hst, mem_closure h.keyed hfirst] at hstart
  generalize hi : Item.start r.id = i at hstart
  cases hstart with
  | kernel hmem => exact absurd (hf.eq_augmentedRule h hst (hi ▸ hmem)) hne
  | @start j r' rest hasks hrest hr' =>
    have hsame : r = r' := h.eq_of_id_eq hr hr' (Item.start_inj.mp hi)
    rw [hf.exists_target_iff hst, hf.items hst]
    exact ⟨j, (mem_closure h.keyed hfirst).mpr hasks,
      Item.next?_eq_some_iff.mpr ⟨rest, hsame ▸ hrest⟩⟩

/-- In the initial state no marker has moved. -/
theorem marker_eq_zero_of_initial (h : g.Augmented) (hfirst : first.Within g)
    (hf : a.Faithful g first mode kernel) (hst : a.states[initialState]? = some st) {i : Item}
    (hi : i ∈ st.items) : i.marker = 0 := by
  rw [hf.items hst, mem_closure h.keyed hfirst] at hi
  rcases hi.mem_or_start with hi | ⟨r, _, rfl⟩
  · rw [mem_initialKernel.mp (hf.initial.extends_.mem_iff.mp hi)]
    rfl
  · rfl

/-- Parsing starts with the end of input ahead of the augmented rule. -/
theorem endOfInput_mem_initial (h : g.Augmented) (hf : a.Faithful g first mode kernel)
    (hst : a.states[initialState]? = some st) :
    endOfInput ∈ st.items.lookaheads (Item.start augmentedRule) := by
  rw [hf.items hst]
  refine (le_closure h.keyed _).2 _ _ (hf.initial.extends_.lookaheads _ _ ?_)
  exact mem_lookaheads_initialKernel.mpr ⟨rfl, rfl⟩

end Items

/-! ## Items and stacks -/

/-- A path ends in a state. -/
theorem state_of_path (hf : a.Faithful g first mode kernel) {s : Nat} {states : List Nat}
    {stack : List (StackSymbol Nat Nat)} (hpath : a.Path (s :: states) stack) :
    ∃ st, a.states[s]? = some st := by
  cases hpath with
  | start => exact state_of_lt hf.pos
  | edge _ hst htarget => exact (hf.target_state hst htarget).1

/-- What an item of the state on top says about the stacks below it. -/
structure ItemOnPath (g : Grammar) (a : Automaton) (states : List Nat)
    (stack : List (StackSymbol Nat Nat)) (items : ItemSet) (r : Rule) (i : Item) : Prop where
  marker_le : i.marker ≤ stack.length
  symbols : (stack.take i.marker).map StackSymbol.toSymbol = (r.right.take i.marker).reverse
  begun : ∃ s below st, states.drop i.marker = s :: below ∧ a.states[s]? = some st ∧
    Item.start r.id ∈ st.items ∧
    ∀ b ∈ st.items.lookaheads (Item.start r.id), b ∈ items.lookaheads i

/-- The symbols before the marker of an item are on top of the stack, and below them is a state in
which its rule was begun, with lookaheads that the item has kept. -/
theorem item_on_path (h : g.Augmented) (hfirst : first.Within g)
    (hf : a.Faithful g first mode kernel) {r : Rule} (hr : r ∈ g.ruleList) (m : Nat) {s : Nat}
    {states : List Nat} {stack : List (StackSymbol Nat Nat)} {st : State}
    (hpath : a.Path (s :: states) stack) (hst : a.states[s]? = some st)
    (hi : ⟨r.id, m⟩ ∈ st.items) : ItemOnPath g a (s :: states) stack st.items r ⟨r.id, m⟩ := by
  induction m generalizing s states stack st with
  | zero => exact ⟨Nat.zero_le _, rfl, s, states, st, rfl, hst, hi, fun _ hb => hb⟩
  | succ m ih =>
    cases hpath with
    | start => exact absurd (hf.marker_eq_zero_of_initial h hfirst hst hi) (Nat.succ_ne_zero m)
    | @edge s' _ states stack st' x hbelow hst' htarget =>
      obtain ⟨i, hmem, hx, hadvance⟩ :=
        hf.exists_of_marker_ne_zero h hfirst hst' htarget hst hi (Nat.succ_ne_zero m)
      have hi' : i = ⟨r.id, m⟩ := by
        rw [← Item.advance_inj, ← hadvance]
        rfl
      subst hi'
      obtain ⟨hle, hsymbols, b, below, stb, hdrop, hstb, hstart, hkept⟩ := ih hbelow hst' hmem
      refine ⟨Nat.succ_le_succ hle, ?_, b, below, stb, hdrop, hstb, hstart, ?_⟩
      · have hget : r.right[m]? = some x.toSymbol := by
          rw [Item.next?, Item.rest_of_rule_eq h hr rfl, List.head?_drop] at hx
          exact hx
        simp only at hsymbols
        rw [List.take_succ_cons, List.map_cons, hsymbols, List.take_add_one, hget]
        simp
      · intro c hc
        exact hf.advance_lookaheads h hst' htarget hst hx (hkept c hc)

/-- A rule that is reduced by belongs to a complete item. -/
theorem complete_item (h : g.Augmented) {st : State}
    (hfits : ∀ i ∈ st.items, i.Fits g) {b rule : Nat} (hmem : rule ∈ reductionsOn g st.items b) :
    ∃ r ∈ g.ruleList, r.id = rule ∧ ⟨r.id, r.right.length⟩ ∈ st.items ∧
      b ∈ st.items.lookaheads ⟨r.id, r.right.length⟩ := by
  obtain ⟨i, hi, hcomplete, hb, hrule⟩ := mem_reductionsOn.mp hmem
  obtain ⟨r, hr, hid, hle⟩ := hfits i hi
  have hge := (Item.isComplete_of_rule_eq h hr hid).mp hcomplete
  have hitem : i = ⟨r.id, r.right.length⟩ := by
    cases i
    simp_all
    omega
  subst hitem
  exact ⟨r, hr, hrule, hi, hb⟩

/-- The augmented rule is begun at the bottom of the stack only. -/
theorem path_of_augmented (havoid : g.AvoidsReserved) (h : g.Augmented) (hfirst : first.Within g)
    (hf : a.Faithful g first mode kernel) {s : Nat} {states : List Nat}
    {stack : List (StackSymbol Nat Nat)} {st : State} (hpath : a.Path (s :: states) stack)
    (hst : a.states[s]? = some st) (hstart : Item.start augmentedRule ∈ st.items) :
    s = initialState ∧ states = [] ∧ stack = [] := by
  cases hpath with
  | start => exact ⟨rfl, rfl, rfl⟩
  | edge _ hst' htarget =>
    rw [hf.items hst, mem_closure h.keyed hfirst] at hstart
    have hkernel := hstart.mem_of_augmented havoid h rfl
    rw [(hf.target_state hst' htarget).2.extends_.mem_iff] at hkernel
    obtain ⟨i, _, _, hadvance⟩ := mem_advanceOver.mp hkernel
    exact absurd hadvance.symm (Item.advance_ne_start i _)

/-- Where the augmented rule is complete, the start symbol is all there is on the stack, and only
the end of input may follow. -/
theorem path_of_accept (havoid : g.AvoidsReserved) (h : g.Augmented) (hfirst : first.Within g)
    (hf : a.Faithful g first mode kernel) {s : Nat} {states : List Nat}
    {stack : List (StackSymbol Nat Nat)} {st : State} (hpath : a.Path (s :: states) stack)
    (hst : a.states[s]? = some st) {b : Nat} (hb : augmentedRule ∈ reductionsOn g st.items b) :
    stack = [.nonterminal g.start] ∧ b = endOfInput := by
  obtain ⟨r, hr, hid, hitem, hlookahead⟩ := complete_item h (hf.fits h hfirst hst) hb
  have hzero := h.eq_of_id_eq hr h.rule_zero_mem hid
  subst hzero
  obtain ⟨_, hsymbols, s', below, st', hdrop, hst', hstart, _⟩ :=
    hf.item_on_path h hfirst hr 1 hpath hst hitem
  constructor
  · cases hpath with
    | start => cases hdrop
    | @edge _ _ _ stack _ x hbelow _ _ =>
      rw [List.drop_one, List.tail_cons] at hdrop
      rw [hdrop] at hbelow
      obtain ⟨_, _, rfl⟩ := hf.path_of_augmented havoid h hfirst hbelow hst' hstart
      cases x with
      | token t => cases hsymbols
      | nonterminal n =>
        cases hsymbols
        rfl
  · rw [hf.items hst, mem_lookaheads_closure h.keyed hfirst] at hlookahead
    exact (hf.arises hst).eq_endOfInput havoid h hfirst
      (hlookahead.mem_of_augmented havoid h rfl) rfl

/-! ## Moves and items -/

section Actions

variable {s : Nat} {st : State}

/-- A parser shifts along an edge, reduces by a rule that can be reduced by, accepts where the
augmented rule can be reduced by, or fails. -/
theorem action_cases (h : g.Augmented) (hfirst : first.Within g)
    (hf : a.Faithful g first mode kernel) (hst : a.states[s]? = some st)
    (lookahead : Option Nat) :
    (∃ next, a.table.action s lookahead = .shift next ∧
        st.target? (.terminal (lookahead.getD endOfInput)) = some next) ∨
      (∃ r ∈ g.ruleList, a.table.action s lookahead = .reduce r.id r.left r.right.length ∧
        r.id ≠ augmentedRule ∧ r.id ∈ reductionsOn g st.items (lookahead.getD endOfInput)) ∨
      (a.table.action s lookahead = .accept ∧
        augmentedRule ∈ reductionsOn g st.items (lookahead.getD endOfInput)) ∨
      a.table.action s lookahead = .fail := by
  rw [hf.action_eq h hst]
  rcases resolve_cases g (lookahead.getD endOfInput)
    (st.target? (.terminal (lookahead.getD endOfInput)))
    (reductionsOn g st.items (lookahead.getD endOfInput)) with
    ⟨next, htarget, hchoice⟩ | ⟨rule, hmem, hchoice⟩ | hchoice
  · exact Or.inl ⟨next, by rw [State.choice, hchoice]; rfl, htarget⟩
  · refine Or.inr ?_
    by_cases hrule : rule = augmentedRule
    · refine Or.inr (Or.inl ⟨?_, hrule ▸ hmem⟩)
      rw [State.choice, hchoice, reduceOrAccept, if_pos hrule]
      rfl
    · obtain ⟨r, hr, rfl, _⟩ := complete_item h (hf.fits h hfirst hst) hmem
      refine Or.inl ⟨r, hr, ?_, hrule, hmem⟩
      rw [State.choice, hchoice, reduceOrAccept, if_neg hrule, Action.toParse,
        h.mem_ruleList.mp hr]
  · exact Or.inr (Or.inr (Or.inr (by rw [State.choice, hchoice]; rfl)))

/-- Where a state shifts it has an edge on the terminal. -/
theorem shift_spec (h : g.Augmented) (hfirst : first.Within g)
    (hf : a.Faithful g first mode kernel) (hst : a.states[s]? = some st) {lookahead : Option Nat}
    {next : Nat} (haction : a.table.action s lookahead = .shift next) :
    st.target? (.terminal (lookahead.getD endOfInput)) = some next := by
  rcases hf.action_cases h hfirst hst lookahead with
    ⟨next', hshift, htarget⟩ | ⟨r, _, hreduce, _⟩ | ⟨haccept, _⟩ | hfail
  · rw [haction] at hshift
    cases hshift
    exact htarget
  all_goals simp_all

/-- Where a state reduces, the rule is one of those that compete. -/
theorem reduce_spec (h : g.Augmented) (hfirst : first.Within g)
    (hf : a.Faithful g first mode kernel) (hst : a.states[s]? = some st) {lookahead : Option Nat}
    {rule left length : Nat} (haction : a.table.action s lookahead = .reduce rule left length) :
    ∃ r ∈ g.ruleList, r.id = rule ∧ r.left = left ∧ r.right.length = length ∧
      r.id ≠ augmentedRule ∧ r.id ∈ reductionsOn g st.items (lookahead.getD endOfInput) := by
  rcases hf.action_cases h hfirst hst lookahead with
    ⟨next', hshift, _⟩ | ⟨r, hr, hreduce, hne, hmem⟩ | ⟨haccept, _⟩ | hfail
  · simp_all
  · rw [haction] at hreduce
    cases hreduce
    exact ⟨r, hr, rfl, rfl, rfl, hne, hmem⟩
  all_goals simp_all

/-- Where a state accepts, the augmented rule is one of those that compete. -/
theorem accept_spec (h : g.Augmented) (hfirst : first.Within g)
    (hf : a.Faithful g first mode kernel) (hst : a.states[s]? = some st) {lookahead : Option Nat}
    (haction : a.table.action s lookahead = .accept) :
    augmentedRule ∈ reductionsOn g st.items (lookahead.getD endOfInput) := by
  rcases hf.action_cases h hfirst hst lookahead with
    ⟨next', hshift, _⟩ | ⟨r, _, hreduce, _⟩ | ⟨_, hmem⟩ | hfail
  · simp_all
  · simp_all
  · exact hmem
  · simp_all

end Actions

/-- A move keeps the states on a path. -/
theorem path_of_move (h : g.Augmented) (hfirst : first.Within g)
    (hf : a.Faithful g first mode kernel)
    {c c' : Configuration Nat Nat Nat} {e : ParseEvent Nat Nat Nat Nat}
    (hpath : a.Path c.states c.stack) (hmove : Move a.table c e c') :
    a.Path c'.states c'.stack := by
  cases hmove with
  | shift haction =>
    obtain ⟨st, hst⟩ := hf.state_of_path hpath
    exact .edge hpath hst (hf.shift_spec h hfirst hst haction)
  | @reduce s below next states rest stack input rule left length _ hdrop hlength hgoto =>
    have hbelow := hpath.drop hlength
    simp only [hdrop] at hbelow
    obtain ⟨st, hst⟩ := hf.state_of_path hbelow
    rw [hf.goto_eq hst] at hgoto
    exact Path.edge (x := .nonterminal left) hbelow hst hgoto

/-- Any number of moves keeps the states on a path. -/
theorem path_of_moves (h : g.Augmented) (hfirst : first.Within g)
    (hf : a.Faithful g first mode kernel)
    {c c' : Configuration Nat Nat Nat} {events : List (ParseEvent Nat Nat Nat Nat)}
    (hpath : a.Path c.states c.stack) (hmoves : Moves a.table c events c') :
    a.Path c'.states c'.stack := by
  induction hmoves with
  | nil _ => exact hpath
  | cons hmove _ ih => exact ih (hf.path_of_move h hfirst hpath hmove)

end Faithful
end Automaton
end ParserGen
