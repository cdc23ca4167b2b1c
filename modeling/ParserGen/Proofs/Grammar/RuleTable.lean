import ParserGen.Proofs.Grammar.Declaring

/-!
# The rule table of a defined grammar

A finished definition numbers its rules by their keys and puts the augmented rule at number zero.
Everything about automata that follows relies on the rule table only through these facts.

Main results:

- Theorem `Grammar.Keyed.mem_ruleList`: the listed rules are those that the table gives for their
  own numbers.
- Theorem `Grammar.augmented_of_define`: every grammar that a list of declarations defines has a
  rule table of this form.
-/

namespace ParserGen

namespace Grammar

/-- Every rule is kept under its own number. -/
def Keyed (g : Grammar) : Prop := ∀ (k : Nat) (r : Rule), g.rules[k]? = some r → r.id = k

/-- The place of every rule in the order of declaration is its number. -/
def InOrder (g : Grammar) : Prop := ∀ (k : Nat) (r : Rule), g.rules[k]? = some r → r.order = k

/-- The rule table of a finished definition: a rule is kept under its own number, which is also its
place in the order of declaration, and rule zero leads from the augmented start symbol to the start
symbol, which is another nonterminal. -/
structure Augmented (g : Grammar) : Prop where
  id_eq : ∀ {k : Nat} {r : Rule}, g.rules[k]? = some r → r.id = k
  order_eq : ∀ {k : Nat} {r : Rule}, g.rules[k]? = some r → r.order = k
  rule_zero : g.rules[augmentedRule]? = some (.augmented g.start)
  start_ne : g.start ≠ augmentedStart

/-- The declared productions use neither the augmented start symbol nor the end of input. -/
def AvoidsReserved (g : Grammar) : Prop :=
  ∀ r ∈ g.ruleList, r.id ≠ augmentedRule →
    r.left ≠ augmentedStart ∧ .nonterminal augmentedStart ∉ r.right ∧
      .terminal endOfInput ∉ r.right

instance (g : Grammar) : Decidable g.AvoidsReserved :=
  inferInstanceAs (Decidable (∀ r ∈ g.ruleList, _))

/-- The rules that are listed are those of the table. -/
theorem mem_ruleList_iff_exists {g : Grammar} {r : Rule} :
    r ∈ g.ruleList ↔ ∃ k : Nat, g.rules[k]? = some r :=
  IndexMap.mem_values

/-- There are as many rules in the list as in the table. -/
theorem length_ruleList (g : Grammar) : g.ruleList.length = g.rules.size :=
  g.rules.length_values

namespace Keyed

variable {g : Grammar}

/-- The rules that are listed are those under their own numbers. -/
theorem mem_ruleList (h : g.Keyed) {r : Rule} :
    r ∈ g.ruleList ↔ g.rules[r.id]? = some r := by
  rw [mem_ruleList_iff_exists]
  constructor
  · rintro ⟨k, hk⟩
    rw [h k r hk]
    exact hk
  · intro hr
    exact ⟨r.id, hr⟩

/-- Rules with the same number are the same rule. -/
theorem eq_of_id_eq (h : g.Keyed) {r r' : Rule} (hr : r ∈ g.ruleList)
    (hr' : r' ∈ g.ruleList) (hid : r.id = r'.id) : r = r' := by
  have hlookup := h.mem_ruleList.mp hr
  rw [hid, h.mem_ruleList.mp hr'] at hlookup
  exact (Option.some.inj hlookup).symm

end Keyed

/-- Where rules are in order, a rule that is there has its number for its order. -/
theorem InOrder.orderOf_eq {g : Grammar} (h : g.InOrder) {k : Nat} {r : Rule}
    (hr : g.rules[k]? = some r) : g.orderOf k = k := by
  rw [orderOf, hr, Option.map_some, Option.getD_some, h k r hr]

namespace Augmented

variable {g : Grammar}

theorem keyed (h : g.Augmented) : g.Keyed := fun _ _ hr => h.id_eq hr

theorem mem_ruleList (h : g.Augmented) {r : Rule} :
    r ∈ g.ruleList ↔ g.rules[r.id]? = some r :=
  h.keyed.mem_ruleList

theorem eq_of_id_eq (h : g.Augmented) {r r' : Rule} (hr : r ∈ g.ruleList)
    (hr' : r' ∈ g.ruleList) (hid : r.id = r'.id) : r = r' :=
  h.keyed.eq_of_id_eq hr hr' hid

/-- The augmented rule is one of the rules. -/
theorem rule_zero_mem (h : g.Augmented) : .augmented g.start ∈ g.ruleList :=
  h.mem_ruleList.mpr h.rule_zero

theorem inOrder (h : g.Augmented) : g.InOrder := fun _ _ hr => h.order_eq hr

/-- A rule of a nonterminal that is not the augmented start symbol has another number than the
augmented rule. -/
theorem id_ne_of_left_ne (h : g.Augmented) {r : Rule} (hr : r ∈ g.ruleList)
    (hleft : r.left ≠ augmentedStart) : r.id ≠ augmentedRule := by
  intro hid
  have heq := h.eq_of_id_eq hr h.rule_zero_mem hid
  rw [heq] at hleft
  exact hleft rfl

end Augmented
end Grammar

/-! ## Definitions in progress -/

namespace Definition

/-- What every declaration keeps: rules are kept under their own numbers, which are also their
places in the order, and the start symbol, if one was declared, is not the augmented one. -/
structure Numbered (d : Definition) : Prop where
  id_eq : ∀ {k : Nat} {r : Rule}, d.rules[k]? = some r → r.id = k
  order_eq : ∀ {k : Nat} {r : Rule}, d.rules[k]? = some r → r.order = k
  start_ne : d.start ≠ some augmentedStart

/-- At the beginning the tables have the reserved symbols only. -/
theorem numbered_initial : initial.Numbered where
  id_eq h := by simp [initial] at h
  order_eq h := by simp [initial] at h
  start_ne := by simp [initial]

/-- No declaration, refused or not, breaks the numbering. -/
theorem Numbered.declare {d : Definition} (h : d.Numbered) (c : Declaration) :
    (d.declare c).2.Numbered := by
  rcases hd : d.declare c with ⟨cause | n, d'⟩
  · rw [refused_frame hd]
    exact ⟨h.id_eq, h.order_eq, h.start_ne⟩
  · cases effect_of_declare hd with
    | terminal => exact ⟨h.id_eq, h.order_eq, h.start_ne⟩
    | nonterminal => exact ⟨h.id_eq, h.order_eq, h.start_ne⟩
    | rule _ =>
      exact ⟨fun hr => IndexMap.forall_getElem?_insert h.id_eq (by rfl) hr,
        fun hr => IndexMap.forall_getElem?_insert h.order_eq (by rfl) hr, h.start_ne⟩
    | start _ hne => exact ⟨h.id_eq, h.order_eq, by simpa using hne⟩

/-- Declarations keep the tables numbered. -/
theorem Numbered.declareAll {d d' : Definition} (h : d.Numbered) {cs : List Declaration}
    (hd : d.declareAll cs = .ok d') : d'.Numbered := by
  rw [← declareEach_of_declareAll hd]
  exact declareEach_induction (fun _ c hkept => hkept.declare c) h cs

/-- The start symbol is not the augmented one. -/
theorem Numbered.startSymbol_ne {d : Definition} (h : d.Numbered) {n : Nat}
    (hn : d.startSymbol? = some n) : n ≠ augmentedStart := by
  unfold startSymbol? at hn
  split at hn
  · rename_i m hm
    cases hn
    intro hzero
    exact h.start_ne (hzero ▸ hm)
  · have hfound := List.find?_some hn
    simpa using hfound

/-- Finishing puts the augmented rule in place and keeps the others. -/
theorem Numbered.finish {d : Definition} (h : d.Numbered) {g : Grammar}
    (hg : d.finish = .ok g) : g.Augmented := by
  unfold Definition.finish at hg
  split at hg
  · cases hg
  · rename_i start hstart
    cases hg
    -- Sorting the rules changes none of them.
    refine ⟨fun hr => IndexMap.forall_getElem?_insert h.id_eq (by rfl) hr,
      fun hr => IndexMap.forall_getElem?_insert h.order_eq (by rfl) hr, ?_,
      h.startSymbol_ne hstart⟩
    rw [IndexMap.getElem?_sortKeys, IndexMap.getElem?_insert, if_pos rfl]

end Definition

/-- A list of declarations, if none of them is refused, defines a grammar with the augmented rule at
number zero and every other rule at its own number and place. -/
theorem Grammar.augmented_of_define {declarations : List Declaration} {g : Grammar}
    (hg : Grammar.define declarations = .ok g) : g.Augmented := by
  unfold Grammar.define at hg
  split at hg
  · rename_i d hd
    exact (Definition.numbered_initial.declareAll hd).finish hg
  · cases hg

end ParserGen
