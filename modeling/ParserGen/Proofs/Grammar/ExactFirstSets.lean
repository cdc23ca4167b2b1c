import ParserGen.Proofs.Grammar.RightContexts
import ParserGen.Proofs.Results

/-!
# FIRST tables are exact

The table of a grammar is true and closed under the rules.  So it says of strings what derivations
say, where a derivation need not come to a terminal string: the first terminal of a string counts
even where the symbols after it derive nothing.

Main results:

- Theorem `Grammar.begins_iff_derives`: a terminal comes first in a string when the string derives
  one that begins with it.
- Theorems `FirstTable.allNullable_iff_derives` and `FirstTable.mem_firstOfString_iff_derives`: a
  table that is true and closed says what a string derives.
- Theorem `FirstTable.exact_ofGrammar`: the sweeps come to an end with such a table.
-/

namespace ParserGen

/-! ## First terminals and derivations -/

namespace Grammar

variable {g : Grammar} {x y : List Symbol} {t : Nat}

/-- A replacement may be made before other symbols. -/
theorem Produces.append_right (h : g.Produces x y) (z : List Symbol) :
    g.Produces (x ++ z) (y ++ z) := by
  obtain ⟨r, hr, before, after, rfl, rfl⟩ := h
  exact ⟨r, hr, before, after ++ z, by simp, by simp⟩

/-- A derivation may be made before other symbols. -/
theorem Derives.append_right (h : g.Derives x y) (z : List Symbol) :
    g.Derives (x ++ z) (y ++ z) :=
  h.lift (· ++ z) fun _ _ hstep => hstep.append_right z

/-- A rule is applied to the first symbol of a string, and its right-hand side derives something. -/
theorem derives_of_rule {r : Rule} (hr : r ∈ g.ruleList) (h : g.Derives r.right y)
    (x : List Symbol) : g.Derives (.nonterminal r.left :: x) (y ++ x) :=
  .head ⟨r, hr, [], x, rfl, rfl⟩ (h.append_right x)

/-- The derivation of the empty string is one by parts. -/
theorem derives_nil_iff_yields : g.Derives x [] ↔ g.Yields x [] :=
  ⟨fun h => yields_of_derives (w := []) h, Yields.derives⟩

/-- What comes first in a string comes first whatever follows the string. -/
theorem Begins.append_right (h : g.Begins x t) (y : List Symbol) : g.Begins (x ++ y) t := by
  induction h with
  | terminal => exact .terminal
  | inside hr hright _ => exact .inside hr hright
  | after hr hnil _ ih => exact .after hr hnil ih

/-- A terminal comes first behind symbols that can vanish. -/
theorem Begins.append_left (h : g.Begins y t) (hx : g.Yields x []) : g.Begins (x ++ y) t := by
  generalize hw : ([] : List Nat) = w at hx
  induction hx with
  | nil => exact h
  | terminal => cases hw
  | @nonterminal r x u v hr hright _ _ ih =>
    obtain ⟨rfl, rfl⟩ := List.append_eq_nil_iff.mp hw.symm
    exact .after hr hright (ih rfl)

/-- What comes first in a string in two parts comes first in one of them. -/
theorem begins_append_iff :
    g.Begins (x ++ y) t ↔ g.Begins x t ∨ g.Yields x [] ∧ g.Begins y t := by
  constructor
  · intro h
    induction x with
    | nil => exact Or.inr ⟨.nil, h⟩
    | cons symbol x ih =>
      rw [List.cons_append] at h
      cases h with
      | terminal => exact Or.inl .terminal
      | inside hr hright => exact Or.inl (.inside hr hright)
      | after hr hnil h =>
        rcases ih h with hx | ⟨hx, hy⟩
        · exact Or.inl (.after hr hnil hx)
        · exact Or.inr ⟨.nonterminal hr hnil hx, hy⟩
  · rintro (hx | ⟨hx, hy⟩)
    · exact hx.append_right y
    · exact hy.append_left hx

/-- What comes first after a replacement comes first before it. -/
theorem Begins.of_produces (hxy : g.Produces x y) (h : g.Begins y t) : g.Begins x t := by
  obtain ⟨r, hr, before, after, rfl, rfl⟩ := hxy
  rw [List.append_assoc, begins_append_iff, begins_append_iff] at h
  rw [begins_append_iff]
  -- The terminal stands before the replaced nonterminal, in the right-hand side, or after it.
  rcases h with hbefore | ⟨hbefore, hright | ⟨hright, hafter⟩⟩
  · exact Or.inl hbefore
  · exact Or.inr ⟨hbefore, .inside hr hright⟩
  · exact Or.inr ⟨hbefore, .after hr hright hafter⟩

theorem Begins.of_derives (hxy : g.Derives x y) (h : g.Begins y t) : g.Begins x t := by
  induction hxy using Relation.ReflTransGen.head_induction_on with
  | refl => exact h
  | head hstep _ ih => exact .of_produces hstep ih

theorem Begins.exists_derives (h : g.Begins x t) : ∃ rest, g.Derives x (.terminal t :: rest) := by
  induction h with
  | @terminal t x => exact ⟨x, .refl⟩
  | @inside r x t hr _ ih =>
    obtain ⟨rest, hright⟩ := ih
    exact ⟨rest ++ x, derives_of_rule hr hright x⟩
  | @after r x t hr hnil _ ih =>
    obtain ⟨rest, hx⟩ := ih
    exact ⟨rest, (derives_of_rule hr hnil.derives x).trans hx⟩

/-- A terminal comes first in a string when the string derives one that begins with it. -/
theorem begins_iff_derives : g.Begins x t ↔ ∃ rest, g.Derives x (.terminal t :: rest) :=
  ⟨Begins.exists_derives, fun ⟨_, hrest⟩ => .of_derives hrest .terminal⟩

end Grammar

/-! ## What the table says -/

namespace FirstTable

variable {g : Grammar} {table : FirstTable} {x : List Symbol} {t : Nat}

/-- A string is nullable when it derives the empty string. -/
theorem allNullable_iff_derives (htrue : table.Truthful g) (hclosed : table.Closed g) :
    table.allNullable x = true ↔ g.Derives x [] := by
  rw [Grammar.derives_nil_iff_yields]
  exact ⟨htrue.yields_nil, fun hx => (hclosed.first_of_yields hx).1 rfl⟩

/-- The FIRST set of a string has the terminals that begin what the string derives. -/
theorem mem_firstOfString_iff_derives (htrue : table.Truthful g) (hclosed : table.Closed g) :
    t ∈ table.firstOfString x ↔ ∃ rest, g.Derives x (.terminal t :: rest) := by
  rw [← Grammar.begins_iff_derives]
  exact ⟨htrue.begins, hclosed.mem_firstOfString⟩

/-- The sweeps end with a table that says which nonterminals derive the empty string, and of a
string followed by lookaheads, which terminals come first: those that begin what the string derives,
and the lookaheads if the string derives the empty string. -/
theorem exact_ofGrammar (known : ∀ r ∈ g.ruleList, r.left ∈ g.nonterminals) :
    Converges (sweep g) (initial g) (ofGrammar g) ∧
      (∀ n, (ofGrammar g).isNullable n = true ↔ g.Derives [.nonterminal n] []) ∧
      ∀ x lookaheads t, t ∈ (ofGrammar g).firstWith x lookaheads ↔
        (∃ rest, g.Derives x (.terminal t :: rest)) ∨ g.Derives x [] ∧ t ∈ lookaheads := by
  have htrue := truthful_ofGrammar g
  have hclosed := closed_ofGrammar known
  refine ⟨converges_iterateWhileChanged (reportsChanges_sweep g) (sweep_ofGrammar g), fun n => ?_,
    fun x lookaheads t => ?_⟩
  · have hstring := allNullable_iff_derives (x := [.nonterminal n]) htrue hclosed
    simpa using hstring
  · rw [mem_firstWith, mem_firstOfString_iff_derives htrue hclosed,
      allNullable_iff_derives htrue hclosed]

/-- Lists of items, where a list may be empty, an item may begin with a list, and a loss is never
over. -/
def wordLists : List Declaration :=
  [.terminal "word" none, .terminal "lost" none, .nonterminal "list", .nonterminal "item",
    .nonterminal "loss", .rule 1 [.nonterminal 1, .nonterminal 2] none, .rule 1 [] none,
    .rule 2 [.nonterminal 1, .terminal 1] none, .rule 2 [.nonterminal 3] none,
    .rule 3 [.nonterminal 1, .terminal 2, .nonterminal 3] none]

/-- A list and an item call themselves on the left, the item behind a list that can vanish, and a
loss derives no terminal string. -/
theorem exact_ofGrammar_wordLists :
    ∃ g, Grammar.define wordLists = .ok g ∧ (∀ r ∈ g.ruleList, r.left ∈ g.nonterminals) ∧
      Converges (sweep g) (initial g) (ofGrammar g) ∧
      (∀ n, (ofGrammar g).isNullable n = true ↔ g.Derives [.nonterminal n] []) ∧
      ∀ x lookaheads t, t ∈ (ofGrammar g).firstWith x lookaheads ↔
        (∃ rest, g.Derives x (.terminal t :: rest)) ∨ g.Derives x [] ∧ t ∈ lookaheads := by
  have hsome : (Grammar.define wordLists).toOption.any
      (fun g => decide (∀ r ∈ g.ruleList, r.left ∈ g.nonterminals)) = true := by
    decide +kernel
  obtain ⟨g, hg, hp⟩ := (Option.any_eq_true _ _).mp hsome
  have hknown := of_decide_eq_true hp
  exact ⟨g, eq_ok_of_toOption_eq_some hg, hknown, exact_ofGrammar hknown⟩

end FirstTable
end ParserGen
