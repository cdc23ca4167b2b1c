import Mathlib.Data.List.Induction
import ParserGen.Proofs.Automaton.Paths

/-!
# Reading strings of symbols

An automaton reads terminals and nonterminals alike along its edges.  The state that a string of
symbols leads to is the last one on the path with these symbols.

Main results:

- Theorem `Automaton.read?_append`: a string is read part by part.
- Theorem `Automaton.read?_eq_some_iff`: reading follows a path.
- Theorem `Automaton.Faithful.lookaheads_of_read`: items keep their lookaheads while the symbols
  after their markers are read.
-/

namespace ParserGen

open ItemSet

/-- A symbol of the grammar on a parser's stack. -/
def Symbol.toStack : Symbol → StackSymbol Nat Nat
  | .terminal t => .token t
  | .nonterminal n => .nonterminal n

@[simp]
theorem Symbol.toSymbol_toStack (x : Symbol) : x.toStack.toSymbol = x := by
  cases x <;> rfl

@[simp]
theorem StackSymbol.toStack_toSymbol (x : StackSymbol Nat Nat) : x.toSymbol.toStack = x := by
  cases x <;> rfl

namespace Automaton

variable {a : Automaton}

/-- The state that a symbol leads to from state `s`. -/
def step? (a : Automaton) (s : Nat) (x : Symbol) : Option Nat :=
  (a.state? s).bind fun st => st.target? x

/-- The state that a string of symbols leads to from state `s`. -/
def readFrom? (a : Automaton) (s : Nat) (γ : List Symbol) : Option Nat :=
  γ.foldlM a.step? s

/-- The state that a string of symbols leads to from the initial state. -/
def read? (a : Automaton) (γ : List Symbol) : Option Nat := a.readFrom? initialState γ

theorem step?_eq_some_iff {s t : Nat} {x : Symbol} :
    a.step? s x = some t ↔ ∃ st, a.states[s]? = some st ∧ st.target? x = some t :=
  Option.bind_eq_some_iff

@[simp]
theorem readFrom?_nil (s : Nat) : a.readFrom? s [] = some s := rfl

theorem readFrom?_cons (s : Nat) (x : Symbol) (γ : List Symbol) :
    a.readFrom? s (x :: γ) = (a.step? s x).bind fun t => a.readFrom? t γ :=
  List.foldlM_cons ..

@[simp]
theorem read?_nil : a.read? [] = some initialState := rfl

/-- A string is read part by part. -/
theorem read?_append (γ δ : List Symbol) :
    a.read? (γ ++ δ) = (a.read? γ).bind fun s => a.readFrom? s δ :=
  List.foldlM_append

theorem read?_concat_eq_some_iff {γ : List Symbol} {x : Symbol} {t : Nat} :
    a.read? (γ ++ [x]) = some t ↔
      ∃ s st, a.read? γ = some s ∧ a.states[s]? = some st ∧ st.target? x = some t := by
  have hone : ∀ s, a.readFrom? s [x] = a.step? s x := fun s => by
    simp [readFrom?_cons]
  simp only [read?_append, hone, Option.bind_eq_some_iff, step?_eq_some_iff]
  constructor
  · rintro ⟨s, hs, st, hst, ht⟩
    exact ⟨s, st, hs, hst, ht⟩
  · rintro ⟨s, st, hs, hst, ht⟩
    exact ⟨s, hs, st, hst, ht⟩

/-- Reading follows the path with the same symbols. -/
theorem read?_eq_some_iff {γ : List Symbol} {s : Nat} :
    a.read? γ = some s ↔ ∃ states, a.Path (s :: states) (γ.reverse.map Symbol.toStack) := by
  induction γ using List.reverseRecOn generalizing s with
  | nil =>
    constructor
    · rintro ⟨⟩
      exact ⟨[], .start⟩
    · rintro ⟨states, hpath⟩
      cases hpath
      rfl
  | append_singleton γ x ih =>
    rw [read?_concat_eq_some_iff, List.reverse_append, List.reverse_singleton,
      List.singleton_append, List.map_cons]
    constructor
    · rintro ⟨s', st, hs', hst, hx⟩
      obtain ⟨states, hpath⟩ := ih.mp hs'
      exact ⟨s' :: states, .edge hpath hst (by rwa [Symbol.toSymbol_toStack])⟩
    · rintro ⟨states, hpath⟩
      cases hpath with
      | edge hbelow hst hx =>
        rw [Symbol.toSymbol_toStack] at hx
        exact ⟨_, _, ih.mpr ⟨_, hbelow⟩, hst, hx⟩

namespace Faithful

variable {g : Grammar} {first : FirstTable} {mode : MergeMode} {kernel : Nat → ItemSet}

theorem state_of_read (hf : a.Faithful g first mode kernel) {γ : List Symbol} {s : Nat}
    (hs : a.read? γ = some s) : ∃ st, a.states[s]? = some st := by
  obtain ⟨states, hpath⟩ := read?_eq_some_iff.mp hs
  exact hf.state_of_path hpath

/-- The symbols after the marker of an item can be read, and the item keeps its lookaheads. -/
theorem lookaheads_of_read (h : g.Augmented) (hf : a.Faithful g first mode kernel) {r : Rule}
    (hr : r ∈ g.ruleList) {α β : List Symbol} {m : Nat} (hright : r.right.drop m = α ++ β)
    {s : Nat} {st : State} (hst : a.states[s]? = some st) (hmem : ⟨r.id, m⟩ ∈ st.items) :
    ∃ t st', a.readFrom? s α = some t ∧ a.states[t]? = some st' ∧
      ⟨r.id, m + α.length⟩ ∈ st'.items ∧
      ∀ b ∈ st.items.lookaheads ⟨r.id, m⟩, b ∈ st'.items.lookaheads ⟨r.id, m + α.length⟩ := by
  induction α generalizing m s st with
  | nil => exact ⟨s, st, rfl, hst, hmem, fun _ hb => hb⟩
  | cons x α ih =>
    have hrest : Item.rest g ⟨r.id, m⟩ = x :: (α ++ β) := by
      rw [Item.rest_of_rule_eq h hr rfl]
      exact hright
    have hx : Item.next? g ⟨r.id, m⟩ = some x := Item.next?_eq_some_iff.mpr ⟨_, hrest⟩
    obtain ⟨u, hu⟩ := (hf.exists_target_iff hst).mpr ⟨_, hmem, hx⟩
    obtain ⟨stu, hstu⟩ := (hf.target_state hst hu).1
    have hnext : r.right.drop (m + 1) = α ++ β := by
      rw [← List.tail_drop, hright]
      rfl
    obtain ⟨t, st', ht, hst', hmem', hkept⟩ :=
      ih hnext hstu (hf.advance_mem h hst hu hstu hmem hx)
    have hread : a.readFrom? s (x :: α) = some t := by
      rw [readFrom?_cons, step?_eq_some_iff.mpr ⟨st, hst, hu⟩]
      exact ht
    rw [List.length_cons, Nat.add_comm α.length, ← Nat.add_assoc]
    exact ⟨t, st', hread, hst', hmem', fun b hb =>
      hkept b (hf.advance_lookaheads h hst hu hstu hx hb)⟩

end Faithful
end Automaton
end ParserGen
