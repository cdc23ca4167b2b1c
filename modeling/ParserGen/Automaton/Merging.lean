import ParserGen.Automaton.Item

/-!
# Merging states

Two kernels with the same core may share a state.  Whether they do depends on the merge mode; in
Pager's practical general method they do if they are weakly compatible, that is, if each lookahead
that the union would share between two of its items is already shared by them in one of the kernels:

    (L₁ i ∩ L₂ j) ∪ (L₂ i ∩ L₁ j) ⊆ (L₁ i ∩ L₁ j) ∪ (L₂ i ∩ L₂ j)

for any two different items `i` and `j`.
-/

namespace ParserGen

/-- Which kernels share a state. -/
inductive MergeMode where
  /-- Only equal kernels. -/
  | canonical
  /-- Weakly compatible kernels. -/
  | pgm
  /-- All kernels with the same core. -/
  | lalr
deriving DecidableEq, Repr

namespace ItemSet

/-- Whether `s` has the items of `t`, each with at least the lookaheads that `t` gives it. -/
def subsumes (s t : ItemSet) : Bool :=
  s.core == t.core && t.core.all fun i => (s.lookaheads i).includes (t.lookaheads i)

/-- The lookaheads that meet in the union of `s` and `t` because `i` has them in one of the two sets
and `j` in the other. -/
def crossed (s t : ItemSet) (i j : Item) : IdSet :=
  (s.lookaheads i ∩ t.lookaheads j) ∪ (t.lookaheads i ∩ s.lookaheads j)

/-- The lookaheads that `i` and `j` share in `s` or in `t`. -/
def shared (s t : ItemSet) (i j : Item) : IdSet :=
  (s.lookaheads i ∩ s.lookaheads j) ∪ (t.lookaheads i ∩ t.lookaheads j)

/-- Whether two item sets with the same core may be merged without a conflict that neither would
have led to on its own. -/
def weaklyCompatible (s t : ItemSet) : Bool :=
  s.core == t.core &&
    s.core.all fun i => s.core.all fun j =>
      i == j || (shared s t i j).includes (crossed s t i j)

/-- How a new kernel relates to a state with the same core. -/
inductive MergeDecision where
  /-- The state has every lookahead of the kernel. -/
  | reuse
  /-- The lookaheads of the kernel are added to the state. -/
  | merge
  /-- The kernel needs another state. -/
  | distinct
deriving DecidableEq, Repr

def decideMerge (mode : MergeMode) (existing incoming : ItemSet) : MergeDecision :=
  match mode with
  | .canonical => if existing = incoming then .reuse else .distinct
  | .lalr => if existing.subsumes incoming then .reuse else .merge
  | .pgm =>
      if existing.subsumes incoming then .reuse
      else if existing.weaklyCompatible incoming then .merge
      else .distinct

end ItemSet
end ParserGen
