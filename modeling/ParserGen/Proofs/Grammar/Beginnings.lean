import ParserGen.Proofs.Grammar.Derivation

/-!
# What derived strings begin with

A FIRST table says which nonterminals can vanish and which terminals can come first.  The table of a
grammar says so exactly: each fact in it is one of a derivation, and each such fact is in it.  A
terminal can come first even where the rest of the string derives no terminal string.

Main results:

- Theorem `FirstTable.truthful_ofGrammar`: what the table of a grammar says is true.
- Theorems `FirstTable.Truthful.yields_nil` and `FirstTable.Truthful.begins`: so is what it says
  about strings.
- Theorem `FirstTable.Closed.mem_firstOfString`: every terminal that can come first is in the table.
-/

namespace ParserGen

/-- The terminal comes first in something that the string can be rewritten to. -/
inductive Grammar.Begins (g : Grammar) : List Symbol → Nat → Prop
  | terminal {t : Nat} {x : List Symbol} : Begins g (.terminal t :: x) t
  | inside {r : Rule} {x : List Symbol} {t : Nat} : r ∈ g.ruleList → Begins g r.right t →
      Begins g (.nonterminal r.left :: x) t
  | after {r : Rule} {x : List Symbol} {t : Nat} : r ∈ g.ruleList → Yields g r.right [] →
      Begins g x t → Begins g (.nonterminal r.left :: x) t

namespace FirstTable

variable {g : Grammar} {table : FirstTable}

/-- What a table says about a nonterminal is true of one of its rules. -/
structure Truthful (g : Grammar) (table : FirstTable) : Prop where
  nullable : ∀ {n : Nat}, table.isNullable n = true →
    ∃ r ∈ g.ruleList, r.left = n ∧ g.Yields r.right []
  first : ∀ {n t : Nat}, t ∈ table.firstOf n → ∃ r ∈ g.ruleList, r.left = n ∧ g.Begins r.right t

/-- A string that a table calls nullable can vanish. -/
theorem Truthful.yields_nil (h : table.Truthful g) {x : List Symbol}
    (hx : table.allNullable x = true) : g.Yields x [] := by
  induction x with
  | nil => exact .nil
  | cons symbol x ih =>
    cases symbol with
    | terminal t => cases hx
    | nonterminal n =>
      rw [allNullable_nonterminal, Bool.and_eq_true] at hx
      obtain ⟨r, hr, rfl, hright⟩ := h.nullable hx.1
      exact .nonterminal hr hright (ih hx.2)

/-- A terminal that a table puts first in a string comes first there. -/
theorem Truthful.begins (h : table.Truthful g) {x : List Symbol} {t : Nat}
    (ht : t ∈ table.firstOfString x) : g.Begins x t := by
  induction x with
  | nil => exact absurd ht (IdSet.not_mem_empty t)
  | cons symbol x ih =>
    cases symbol with
    | terminal t' =>
      rw [firstOfString_terminal, IdSet.mem_singleton] at ht
      exact ht ▸ .terminal
    | nonterminal n =>
      rcases mem_firstOfString_nonterminal.mp ht with hinside | ⟨hnullable, hafter⟩
      · obtain ⟨r, hr, rfl, hright⟩ := h.first hinside
        exact .inside hr hright
      · obtain ⟨r, hr, rfl, hright⟩ := h.nullable hnullable
        exact .after hr hright (ih hafter)

/-- A rule adds only what is true. -/
theorem Truthful.absorb (h : table.Truthful g) {r : Rule} (hr : r ∈ g.ruleList) :
    (table.absorb r).Truthful g where
  nullable hn := by
    rcases isNullable_absorb.mp hn with hold | ⟨rfl, _, hnew⟩
    · exact h.nullable hold
    · exact ⟨r, hr, rfl, h.yields_nil hnew⟩
  first ht := by
    rcases mem_firstOf_absorb.mp ht with hold | ⟨rfl, _, hnew⟩
    · exact h.first hold
    · exact ⟨r, hr, rfl, h.begins hnew⟩

/-- The table in which nothing is known says nothing false. -/
theorem truthful_initial (g : Grammar) : (initial g).Truthful g where
  nullable {n} hn := by
    simp only [isNullable, initial, getElem?_foldl_insert] at hn
    split at hn <;> simp at hn
  first {n t} ht := by
    simp only [firstOf, initial, getElem?_foldl_insert] at ht
    split at ht <;> simp at ht

/-- What the FIRST table of a grammar says is true. -/
theorem truthful_ofGrammar (g : Grammar) : (ofGrammar g).Truthful g :=
  iterateWhileChanged_induction
    (fun _ h => sweep_induction (motive := Truthful g) (fun _ hr _ htable => htable.absorb hr) h) _
    (truthful_initial g)

/-- A terminal that comes first in a string is known to. -/
theorem Closed.mem_firstOfString (h : table.Closed g) {x : List Symbol} {t : Nat}
    (ht : g.Begins x t) : t ∈ table.firstOfString x := by
  induction ht with
  | terminal => exact IdSet.mem_singleton.mpr rfl
  | inside hr _ ih => exact mem_firstOfString_nonterminal.mpr (Or.inl (h.first _ hr _ ih))
  | after hr hright _ ih =>
    have hnullable := h.nullable _ hr ((h.first_of_yields hright).1 rfl)
    exact mem_firstOfString_nonterminal.mpr (Or.inr ⟨hnullable, ih⟩)

end FirstTable

end ParserGen
