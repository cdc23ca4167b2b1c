import ParserGen.Proofs.Grammar.Beginnings

/-!
# Where a nonterminal stands in rightmost derivations

A rightmost derivation from the augmented start symbol may come to a nonterminal with symbols before
it and terminals only after it.  A parser that reads from left to right has then read the symbols
before the nonterminal and looks at the first of the terminals after it.

Main results:

- Theorem `Grammar.rightContext_iff`: these places are found by going down the rules.
- Theorem `Grammar.Productive.exists_yields` and `Grammar.Productive.yields_of_begins`: if every
  nonterminal derives a terminal string, so does every string, and with each terminal that can come
  first.
-/

namespace ParserGen
namespace Grammar

variable {g : Grammar}

/-- Rightmost derivations can be put together. -/
theorem RightmostDerives.trans {x y z : List Symbol} {rules rules' : List Nat}
    (h : g.RightmostDerives x rules y) (h' : g.RightmostDerives y rules' z) :
    g.RightmostDerives x (rules ++ rules') z := by
  induction h with
  | refl x => exact h'
  | step hr _ ih => exact .step hr (ih h')

/-- What a string yields is derived rightmost, whatever symbols are before and whatever terminals
are after it. -/
theorem Yields.rightmostDerives {x : List Symbol} {v : List Nat} (h : g.Yields x v)
    (before : List Symbol) (after : List Nat) :
    ∃ rules, g.RightmostDerives (before ++ x ++ sentence after) rules
      (before ++ sentence (v ++ after)) := by
  induction h generalizing before after with
  | nil =>
    rw [List.append_nil]
    exact ⟨[], .refl _⟩
  | @terminal t x w _ ih =>
    obtain ⟨rules, hderives⟩ := ih (before ++ [.terminal t]) after
    simp only [List.append_assoc, List.singleton_append] at hderives
    rw [List.append_assoc]
    exact ⟨rules, hderives⟩
  | @nonterminal r x u v hr _ _ ihright ih =>
    -- The symbols after the nonterminal come first.
    obtain ⟨rules, hrest⟩ := ih (before ++ [.nonterminal r.left]) after
    obtain ⟨rules', hright⟩ := ihright before (v ++ after)
    simp only [List.append_assoc, List.singleton_append] at hrest
    rw [List.append_assoc u, List.append_assoc before]
    exact ⟨_, hrest.trans (.step hr hright)⟩

/-- What a string yields, it derives. -/
theorem Yields.derives {x : List Symbol} {v : List Nat} (h : g.Yields x v) :
    g.Derives x (sentence v) := by
  obtain ⟨rules, hderives⟩ := h.rightmostDerives [] []
  simpa using hderives.derives

/-! ## Going down the rules -/

/-- A nonterminal with symbols before and terminals after it: the augmented start symbol alone, or a
nonterminal on the right-hand side of a rule whose left-hand side is such a one, where the symbols
after it yield some terminals. -/
inductive RightContext (g : Grammar) : List Symbol → Nat → List Nat → Prop
  | start : RightContext g [] augmentedStart []
  | within {r : Rule} {before α β : List Symbol} {n : Nat} {after v : List Nat} :
      RightContext g before r.left after → r ∈ g.ruleList → r.right = α ++ .nonterminal n :: β →
      Yields g β v → RightContext g (before ++ α) n (v ++ after)

/-- What has a right context turns up with it in a rightmost derivation. -/
theorem RightContext.exists_rightmostDerives {before : List Symbol} {n : Nat} {after : List Nat}
    (h : g.RightContext before n after) :
    ∃ rules, g.RightmostDerives [.nonterminal augmentedStart] rules
      (before ++ .nonterminal n :: sentence after) := by
  induction h with
  | start => exact ⟨[], .refl _⟩
  | @within r before α β n after v _ hr hright hv ih =>
    obtain ⟨rules, hderives⟩ := ih
    obtain ⟨rules', hrest⟩ := hv.rightmostDerives (before ++ α ++ [.nonterminal n]) after
    simp only [List.append_assoc, List.singleton_append] at hrest
    have hstep : g.RightmostDerives (before ++ .nonterminal r.left :: sentence after)
        (r.id :: rules') (before ++ (α ++ .nonterminal n :: sentence (v ++ after))) := by
      refine .step hr ?_
      rw [hright]
      simpa only [List.append_assoc, List.cons_append] using hrest
    rw [List.append_assoc]
    exact ⟨_, hderives.trans hstep⟩

/-- Every nonterminal of a string has a right context with whatever the symbols after it yield. -/
def Placed (g : Grammar) (x : List Symbol) : Prop :=
  ∀ before n after v, x = before ++ .nonterminal n :: after → Yields g after v →
    g.RightContext before n v

/-- The augmented start symbol has the empty right context. -/
theorem placed_start (g : Grammar) : g.Placed [.nonterminal augmentedStart] := by
  intro before n after v heq hv
  cases before with
  | nil =>
    obtain ⟨hn, rfl⟩ := List.cons.inj heq
    cases hn
    cases hv
    exact .start
  | cons y before => simp at heq

/-- A symbol of a string in two parts is in one of the parts. -/
theorem exists_of_append_eq_append_cons {x y before after : List Symbol} {a : Symbol}
    (h : x ++ y = before ++ a :: after) :
    (∃ tail, x = before ++ a :: tail ∧ after = tail ++ y) ∨
      ∃ init, before = x ++ init ∧ y = init ++ a :: after := by
  rcases List.append_eq_append_iff.mp h with ⟨init, rfl, hy⟩ | ⟨tail, rfl, htail⟩
  · exact Or.inr ⟨init, rfl, hy⟩
  · cases tail with
    | nil => exact Or.inr ⟨[], by simp, htail.symm⟩
    | cons b tail =>
      obtain ⟨rfl, rfl⟩ := List.cons.inj htail
      exact Or.inl ⟨tail, rfl, rfl⟩

/-- A step of a rightmost derivation leaves the nonterminals before its place where they are, and
puts those of a right-hand side in the place of another one. -/
theorem Placed.step {r : Rule} {left : List Symbol} {right : List Nat} (hr : r ∈ g.ruleList)
    (h : g.Placed (left ++ .nonterminal r.left :: sentence right)) :
    g.Placed (left ++ r.right ++ sentence right) := by
  intro before n after v heq hv
  rcases exists_of_append_eq_append_cons heq with ⟨tail, hform, rfl⟩ | ⟨init, _, hsentence⟩
  · rcases exists_of_append_eq_append_cons hform with ⟨tail, rfl, rfl⟩ | ⟨α, rfl, hright⟩
    · refine h before n (tail ++ .nonterminal r.left :: sentence right) v (by simp) ?_
      exact .of_produces ⟨r, hr, tail, sentence right, rfl, rfl⟩ hv
    · obtain ⟨u, w, rfl, hu, hw⟩ := hv.exists_of_append
      obtain ⟨_, hw⟩ := hw.exists_rules
      obtain ⟨_, rfl⟩ := hw.eq_of_sentence
      exact .within (h left r.left _ _ rfl (yields_sentence g w)) hr hright hu
  · have hmem : Symbol.nonterminal n ∈ sentence right := by
      rw [hsentence]
      exact List.mem_append_right _ List.mem_cons_self
    simp [sentence] at hmem

/-- Along a rightmost derivation every nonterminal keeps having right contexts. -/
theorem RightmostDerives.placed {x y : List Symbol} {rules : List Nat}
    (h : g.RightmostDerives x rules y) (hx : g.Placed x) : g.Placed y := by
  induction h with
  | refl _ => exact hx
  | step hr _ ih => exact ih (hx.step hr)

/-- The right contexts are the places at which rightmost derivations go on. -/
theorem rightContext_iff {before : List Symbol} {n : Nat} {after : List Nat} :
    g.RightContext before n after ↔
      ∃ rules, g.RightmostDerives [.nonterminal augmentedStart] rules
        (before ++ .nonterminal n :: sentence after) := by
  constructor
  · exact RightContext.exists_rightmostDerives
  · rintro ⟨rules, h⟩
    exact h.placed (placed_start g) _ _ _ _ rfl (yields_sentence g after)

/-! ## Grammars without unproductive nonterminals -/

/-- Every declared nonterminal derives a terminal string. -/
def Productive (g : Grammar) : Prop :=
  ∀ n ∈ g.nonterminals, ∃ w, g.Derives [.nonterminal n] (sentence w)

/-- If each nonterminal of a string yields something, the string does. -/
theorem exists_yields_of_forall {x : List Symbol}
    (hx : ∀ n, .nonterminal n ∈ x → ∃ w, g.Yields [.nonterminal n] w) : ∃ w, g.Yields x w := by
  induction x with
  | nil => exact ⟨[], .nil⟩
  | cons symbol x ih =>
    obtain ⟨v, hv⟩ := ih fun n hn => hx n (List.mem_cons_of_mem _ hn)
    cases symbol with
    | terminal t => exact ⟨t :: v, .terminal hv⟩
    | nonterminal n =>
      obtain ⟨u, hu⟩ := hx n List.mem_cons_self
      exact ⟨u ++ v, hu.append hv⟩

/-- A string of known symbols derives a terminal string. -/
theorem Productive.exists_yields (h : g.Productive) {x : List Symbol}
    (hknown : x.all g.knows = true) : ∃ w, g.Yields x w := by
  refine exists_yields_of_forall fun n hn => ?_
  have hcontains : g.nonterminals.contains n = true := List.all_eq_true.mp hknown _ hn
  obtain ⟨w, hw⟩ := h n (IndexMap.contains_iff_mem.mp hcontains)
  exact ⟨w, yields_of_derives hw⟩

/-- What comes first in a string of known symbols comes first in a terminal string it derives. -/
theorem Productive.yields_of_begins (h : g.Productive)
    (hknown : ∀ r ∈ g.ruleList, r.right.all g.knows = true) {x : List Symbol} {t : Nat}
    (ht : g.Begins x t) (hx : x.all g.knows = true) : ∃ w, g.Yields x (t :: w) := by
  induction ht with
  | @terminal t x =>
    rw [List.all_cons, Bool.and_eq_true] at hx
    obtain ⟨w, hw⟩ := h.exists_yields hx.2
    exact ⟨w, .terminal hw⟩
  | @inside r x t hr _ ih =>
    rw [List.all_cons, Bool.and_eq_true] at hx
    obtain ⟨u, hu⟩ := ih (hknown r hr)
    obtain ⟨v, hv⟩ := h.exists_yields hx.2
    exact ⟨u ++ v, .nonterminal hr hu hv⟩
  | @after r x t hr hnil _ ih =>
    rw [List.all_cons, Bool.and_eq_true] at hx
    obtain ⟨w, hw⟩ := ih hx.2
    exact ⟨w, .nonterminal hr hnil hw⟩

end Grammar
end ParserGen
