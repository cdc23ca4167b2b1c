import ParserGen.Proofs.Automaton.Finished

/-!
# Edited grammars

A finished grammar can be edited: symbols and rules can be left out, and another start symbol can be
set.  As long as an automaton can be built, the augmented rule is still there, and it still leads to
the start symbol that the grammar was defined with.  Nothing else about an automaton depends on the
start symbol, so the automaton is that of a grammar with the old one.

Main results:

- Theorem `Grammar.PartOf.augmented`: with the old start symbol an edited grammar has a rule table
  as a defined grammar has it.
- Theorem `Automaton.faithful_of_edited`: the automaton of an edited grammar is faithful.
-/

namespace ParserGen

namespace Grammar

/-- Every terminal, nonterminal and rule of `g` is one of `whole`.  The tables are only looked up,
so an edit may leave their entries in any order, and it may set any start symbol. -/
structure PartOf (g whole : Grammar) : Prop where
  terminals : ∀ {t : Nat} {terminal : Terminal}, g.terminals[t]? = some terminal →
    whole.terminals[t]? = some terminal
  nonterminals : ∀ {n : Nat} {name : String}, g.nonterminals[n]? = some name →
    whole.nonterminals[n]? = some name
  rules : ∀ {k : Nat} {r : Rule}, g.rules[k]? = some r → whole.rules[k]? = some r

theorem getElem?_of_erase {β : Type} {table : IndexMap β} {k j : Nat} {v : β}
    (h : (table.erase k)[j]? = some v) : table[j]? = some v := by
  rw [IndexMap.getElem?_erase] at h
  split at h
  · cases h
  · exact h

namespace PartOf

variable {g whole : Grammar}

theorem refl (g : Grammar) : g.PartOf g := ⟨id, id, id⟩

theorem dropTerminal (h : g.PartOf whole) (t : Nat) : (g.dropTerminal t).PartOf whole :=
  ⟨fun ht => h.terminals (getElem?_of_erase ht), h.nonterminals, h.rules⟩

theorem dropNonterminal (h : g.PartOf whole) (n : Nat) : (g.dropNonterminal n).PartOf whole :=
  ⟨h.terminals, fun hn => h.nonterminals (getElem?_of_erase hn), h.rules⟩

theorem dropRule (h : g.PartOf whole) (k : Nat) : (g.dropRule k).PartOf whole :=
  ⟨h.terminals, h.nonterminals, fun hr => h.rules (getElem?_of_erase hr)⟩

theorem withStart (h : g.PartOf whole) (n : Nat) : { g with start := n }.PartOf whole :=
  ⟨h.terminals, h.nonterminals, h.rules⟩

/-- Editing leaves the rules their places in the order of declaration. -/
theorem inOrder (h : g.PartOf whole) (hwhole : whole.InOrder) : g.InOrder :=
  fun k r hr => hwhole k r (h.rules hr)

/-- Editing leaves the rules under their own numbers. -/
theorem keyed (h : g.PartOf whole) (hwhole : whole.Keyed) : g.Keyed :=
  fun k r hr => hwhole k r (h.rules hr)

/-- With the old start symbol, an edited grammar that still has the augmented rule has a rule table
as a defined grammar has it. -/
theorem augmented (h : g.PartOf whole) (hwhole : whole.Augmented)
    (hkept : g.rules.contains augmentedRule = true) :
    { g with start := whole.start }.Augmented where
  id_eq hr := h.keyed hwhole.keyed _ _ hr
  order_eq hr := h.inOrder hwhole.inOrder _ _ hr
  rule_zero := by
    obtain ⟨r, hr⟩ :=
      Option.isSome_iff_exists.mp (IndexMap.contains_eq_isSome_getElem?.symm.trans hkept)
    rw [← hwhole.rule_zero, h.rules hr]
    exact hr
  start_ne := hwhole.start_ne

end PartOf

/-- A grammar that passes the check has the augmented rule. -/
theorem contains_augmentedRule {g : Grammar} (hcheck : g.checkBuildable = .ok ()) :
    g.rules.contains augmentedRule = true := by
  unfold checkBuildable at hcheck
  split at hcheck
  · cases hcheck
  · cases hkept : g.rules.contains augmentedRule with
    | true => rfl
    | false =>
      rw [hkept] at hcheck
      cases hcheck

end Grammar

/-! ## Automata and start symbols -/

theorem StateGraph.saturate_withStart (g : Grammar) (n : Nat) (first : FirstTable)
    (mode : MergeMode) (steps : Nat) (graph : StateGraph) :
    graph.saturate { g with start := n } first mode steps = graph.saturate g first mode steps := by
  have hconnect : ∀ (graph : StateGraph) (s : Nat),
      graph.connect { g with start := n } first mode s = graph.connect g first mode s :=
    fun _ _ => rfl
  induction steps generalizing graph with
  | zero => rfl
  | succ steps ih => simp only [saturate, hconnect, ih]

/-- The states of an automaton do not depend on the start symbol, only on the augmented rule. -/
theorem StateGraph.ofGrammar_withStart (g : Grammar) (n : Nat) (first : FirstTable)
    (mode : MergeMode) : ofGrammar { g with start := n } first mode = ofGrammar g first mode := by
  simp only [ofGrammar, saturate_withStart]
  rfl

/-- Which kernels arise does not depend on the start symbol, only on the augmented rule. -/
theorem Arises.of_withStart {g : Grammar} {first : FirstTable} {mode : MergeMode} {n : Nat}
    {kernel : ItemSet} (hk : Arises { g with start := n } first mode kernel) :
    Arises g first mode kernel := by
  induction hk with
  | initial => exact .initial
  | successor _ hx ih => exact .successor ih hx
  | merged _ _ hcore hmerge ih ih' => exact .merged ih ih' hcore hmerge

namespace Automaton

variable {g whole : Grammar} {mode : MergeMode} {a : Automaton}

theorem contains_augmentedRule_of_generate (hrun : (generate mode g).result = .ok a) :
    g.rules.contains augmentedRule = true :=
  Grammar.contains_augmentedRule (checkBuildable_of_generate hrun)

/-- The automaton of an edited grammar is faithful to the grammar with its old start symbol. -/
theorem faithful_of_edited (hwhole : whole.Augmented) (hpart : g.PartOf whole)
    (hrun : (generate mode g).result = .ok a) :
    { g with start := whole.start }.Augmented ∧
      ∃ kernel,
        a.Faithful { g with start := whole.start } (FirstTable.ofGrammar g) mode kernel := by
  have h := hpart.augmented hwhole (contains_augmentedRule_of_generate hrun)
  obtain ⟨graph, hgraph, hbuilt⟩ := exists_graph_of_generate hrun
  rw [← StateGraph.ofGrammar_withStart g whole.start] at hgraph
  have hcomplete := StateGraph.complete_ofGrammar h (FirstTable.within_ofGrammar _) hgraph
  exact ⟨h, _, faithful_of_complete hcomplete hbuilt⟩

end Automaton
end ParserGen
