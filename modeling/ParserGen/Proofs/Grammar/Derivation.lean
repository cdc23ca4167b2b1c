import Mathlib.Logic.Relation
import ParserGen.Proofs.Grammar.FirstSets

/-!
# Derivations

What a grammar derives is defined by rewriting one nonterminal after the other.  Proofs about a
parser use two other forms of a derivation: the parser that reads from left to right follows the
derived string by its parts, and the rules it reduces by are those of a rightmost derivation, last
rule first.

Main results:

- Theorem `Grammar.yields_of_derives`: a derived terminal string is divided among the symbols.
- Theorem `Grammar.RightmostDerives.yieldsBy`: the rules of a rightmost derivation, last rule first,
  are those by which a parser reduces.
- Theorem `Grammar.RightmostDerives.derives`: a rightmost derivation is a derivation.
- Theorem `FirstTable.Closed.mem_firstWith_of_yields`: the FIRST table knows what derived strings
  begin with.
-/

namespace ParserGen
namespace Grammar

variable {g : Grammar}

/-- A terminal string as a string of symbols. -/
def sentence (w : List Nat) : List Symbol := w.map .terminal

@[simp]
theorem sentence_nil : sentence [] = [] := rfl

@[simp]
theorem sentence_cons (t : Nat) (w : List Nat) :
    sentence (t :: w) = .terminal t :: sentence w := rfl

/-- Replace one nonterminal by the right-hand side of one of its rules. -/
def Produces (g : Grammar) (x y : List Symbol) : Prop :=
  ∃ r ∈ g.ruleList, ∃ before after,
    x = before ++ .nonterminal r.left :: after ∧ y = before ++ r.right ++ after

/-- Replace nonterminals any number of times. -/
def Derives (g : Grammar) : List Symbol → List Symbol → Prop := Relation.ReflTransGen g.Produces

/-! ## Derivations by parts -/

/-- A string of symbols and what each of them becomes, put together. -/
inductive Yields (g : Grammar) : List Symbol → List Nat → Prop
  | nil : Yields g [] []
  | terminal {t : Nat} {x : List Symbol} {w : List Nat} : Yields g x w →
      Yields g (.terminal t :: x) (t :: w)
  | nonterminal {r : Rule} {x : List Symbol} {u v : List Nat} : r ∈ g.ruleList →
      Yields g r.right u → Yields g x v → Yields g (.nonterminal r.left :: x) (u ++ v)

/-- A string of symbols, what it yields, and the rules by which a parser that reads from left to
right reduces, in the order in which it does so: those of a right-hand side come before the rule. -/
inductive YieldsBy (g : Grammar) : List Symbol → List Nat → List Nat → Prop
  | nil : YieldsBy g [] [] []
  | terminal {t : Nat} {x : List Symbol} {rules w : List Nat} : YieldsBy g x rules w →
      YieldsBy g (.terminal t :: x) rules (t :: w)
  | nonterminal {r : Rule} {x : List Symbol} {rules rules' u v : List Nat} : r ∈ g.ruleList →
      YieldsBy g r.right rules u → YieldsBy g x rules' v →
      YieldsBy g (.nonterminal r.left :: x) (rules ++ r.id :: rules') (u ++ v)

/-- The rules of a derivation by parts can be forgotten. -/
theorem YieldsBy.yields {x : List Symbol} {rules w : List Nat} (h : YieldsBy g x rules w) :
    Yields g x w := by
  induction h with
  | nil => exact .nil
  | terminal _ ih => exact .terminal ih
  | nonterminal hr _ _ ihright ih => exact .nonterminal hr ihright ih

/-- A derivation by parts uses some rules. -/
theorem Yields.exists_rules {x : List Symbol} {w : List Nat} (h : Yields g x w) :
    ∃ rules, YieldsBy g x rules w := by
  induction h with
  | nil => exact ⟨[], .nil⟩
  | terminal _ ih =>
    obtain ⟨rules, h⟩ := ih
    exact ⟨rules, .terminal h⟩
  | nonterminal hr _ _ ihright ih =>
    obtain ⟨rules, hright⟩ := ihright
    obtain ⟨rules', h⟩ := ih
    exact ⟨_, .nonterminal hr hright h⟩

/-- A sentence yields itself without any rules. -/
theorem yieldsBy_sentence (g : Grammar) (w : List Nat) : YieldsBy g (sentence w) [] w := by
  induction w with
  | nil => exact .nil
  | cons t w ih => exact .terminal ih

/-- A sentence yields only itself. -/
theorem YieldsBy.eq_of_sentence {w rules v : List Nat} (h : YieldsBy g (sentence w) rules v) :
    rules = [] ∧ v = w := by
  induction w generalizing v with
  | nil =>
    cases h
    exact ⟨rfl, rfl⟩
  | cons t w ih =>
    cases h with
    | terminal h =>
      obtain ⟨hrules, rfl⟩ := ih h
      exact ⟨hrules, rfl⟩

/-- What strings yield one by one they yield together. -/
theorem YieldsBy.append {x y : List Symbol} {rules rules' u v : List Nat}
    (hx : YieldsBy g x rules u) (hy : YieldsBy g y rules' v) :
    YieldsBy g (x ++ y) (rules ++ rules') (u ++ v) := by
  induction hx with
  | nil => exact hy
  | terminal _ ih => exact .terminal ih
  | nonterminal hr hright _ _ ih =>
    rw [List.append_assoc, List.append_assoc]
    exact .nonterminal hr hright ih

/-- What a string in two parts yields, and the rules of it, are divided among the parts. -/
theorem YieldsBy.exists_of_append {x y : List Symbol} {rules w : List Nat}
    (h : YieldsBy g (x ++ y) rules w) :
    ∃ rulesx rulesy u v, rules = rulesx ++ rulesy ∧ w = u ++ v ∧
      YieldsBy g x rulesx u ∧ YieldsBy g y rulesy v := by
  induction x generalizing rules w with
  | nil => exact ⟨[], rules, [], w, rfl, rfl, .nil, h⟩
  | cons a x ih =>
    rw [List.cons_append] at h
    cases h with
    | terminal h =>
      obtain ⟨rulesx, rulesy, u, v, hrules, rfl, hx, hy⟩ := ih h
      exact ⟨rulesx, rulesy, _ :: u, v, hrules, rfl, .terminal hx, hy⟩
    | nonterminal hr hright h =>
      obtain ⟨rulesx, rulesy, u, v, rfl, rfl, hx, hy⟩ := ih h
      exact ⟨_ ++ _ :: rulesx, rulesy, _ ++ u, v, by simp, by simp,
        .nonterminal hr hright hx, hy⟩

theorem yields_sentence (g : Grammar) (w : List Nat) : Yields g (sentence w) w :=
  (yieldsBy_sentence g w).yields

/-- What strings yield one by one they yield together. -/
theorem Yields.append {x y : List Symbol} {u v : List Nat} (hx : Yields g x u)
    (hy : Yields g y v) : Yields g (x ++ y) (u ++ v) := by
  obtain ⟨_, hx⟩ := hx.exists_rules
  obtain ⟨_, hy⟩ := hy.exists_rules
  exact (hx.append hy).yields

/-- What a string in two parts yields is divided among the parts. -/
theorem Yields.exists_of_append {x y : List Symbol} {w : List Nat} (h : Yields g (x ++ y) w) :
    ∃ u v, w = u ++ v ∧ Yields g x u ∧ Yields g y v := by
  obtain ⟨_, h⟩ := h.exists_rules
  obtain ⟨_, _, u, v, _, hw, hx, hy⟩ := h.exists_of_append
  exact ⟨u, v, hw, hx.yields, hy.yields⟩

/-- What is yielded after a replacement is yielded before it. -/
theorem Yields.of_produces {x y : List Symbol} {w : List Nat} (hxy : g.Produces x y)
    (h : Yields g y w) : Yields g x w := by
  obtain ⟨r, hr, before, after, rfl, rfl⟩ := hxy
  rw [List.append_assoc] at h
  obtain ⟨u, rest, rfl, hbefore, h⟩ := h.exists_of_append
  obtain ⟨v, v', rfl, hright, hafter⟩ := h.exists_of_append
  exact hbefore.append (.nonterminal hr hright hafter)

/-- What is yielded after replacements is yielded before them. -/
theorem Yields.of_derives {x y : List Symbol} {w : List Nat} (hxy : g.Derives x y)
    (h : Yields g y w) : Yields g x w := by
  induction hxy using Relation.ReflTransGen.head_induction_on with
  | refl => exact h
  | head hstep _ ih => exact .of_produces hstep ih

/-- A derived terminal string is divided among the symbols it is derived from. -/
theorem yields_of_derives {x : List Symbol} {w : List Nat} (h : g.Derives x (sentence w)) :
    Yields g x w :=
  .of_derives h (yields_sentence g w)

/-! ## Rightmost derivations -/

/-- Replace the rightmost nonterminal by one rule after the other. -/
inductive RightmostDerives (g : Grammar) : List Symbol → List Nat → List Symbol → Prop
  | refl (x : List Symbol) : RightmostDerives g x [] x
  | step {r : Rule} {before y : List Symbol} {after rules : List Nat} : r ∈ g.ruleList →
      RightmostDerives g (before ++ r.right ++ sentence after) rules y →
      RightmostDerives g (before ++ .nonterminal r.left :: sentence after) (r.id :: rules) y

/-- Rightmost derivations are derivations. -/
theorem RightmostDerives.derives {x y : List Symbol} {rules : List Nat}
    (h : g.RightmostDerives x rules y) : g.Derives x y := by
  induction h with
  | refl x => exact Relation.ReflTransGen.refl
  | step hr _ ih => exact Relation.ReflTransGen.head ⟨_, hr, _, _, rfl, rfl⟩ ih

/-- The rules of a rightmost derivation, last rule first, are those by which a parser reduces. -/
theorem RightmostDerives.yieldsBy {x : List Symbol} {rules w : List Nat}
    (h : g.RightmostDerives x rules (sentence w)) : YieldsBy g x rules.reverse w := by
  generalize hy : sentence w = y at h
  induction h with
  | refl x =>
    subst hy
    exact yieldsBy_sentence g w
  | @step r before y after rules hr _ ih =>
    obtain ⟨_, _, _, v, hrules, rfl, hform, hafter⟩ := (ih hy).exists_of_append
    obtain ⟨rfl, hv⟩ := hafter.eq_of_sentence
    obtain ⟨_, _, _, _, rfl, rfl, hbefore, hright⟩ := hform.exists_of_append
    have hnew := hbefore.append (.nonterminal hr hright (yieldsBy_sentence g after))
    rw [List.append_nil] at hrules
    rw [List.reverse_cons, hrules, List.append_assoc, List.append_assoc, hv]
    exact hnew

end Grammar

/-! ## What derived strings begin with -/

namespace FirstTable

variable {g : Grammar} {table : FirstTable}

/-- A string that yields nothing is nullable; a terminal that begins what is yielded is known. -/
theorem Closed.first_of_yields (h : table.Closed g) {x : List Symbol} {w : List Nat}
    (hw : g.Yields x w) :
    (w = [] → table.allNullable x = true) ∧
      ∀ t rest, w = t :: rest → t ∈ table.firstOfString x := by
  induction hw with
  | nil => exact ⟨fun _ => rfl, nofun⟩
  | terminal _ _ =>
    refine ⟨nofun, fun t rest heq => ?_⟩
    rw [(List.cons.inj heq).1]
    exact IdSet.mem_singleton.mpr rfl
  | @nonterminal r x u v hr _ _ ihright ihx =>
    constructor
    · intro hnil
      obtain ⟨hu, hv⟩ := List.append_eq_nil_iff.mp hnil
      rw [allNullable_nonterminal, h.nullable r hr (ihright.1 hu), ihx.1 hv]
      rfl
    · intro t rest heq
      rw [mem_firstOfString_nonterminal]
      cases u with
      | nil => exact Or.inr ⟨h.nullable r hr (ihright.1 rfl), ihx.2 t rest heq⟩
      | cons t' u =>
        obtain ⟨rfl, _⟩ := List.cons.inj heq
        exact Or.inl (h.first r hr t' (ihright.2 t' u rfl))

/-- The terminal after a prefix, or the end of input, is among those that can begin the symbols the
prefix is followed by. -/
theorem Closed.mem_firstWith_of_yields (h : table.Closed g) {x : List Symbol} {w rest : List Nat}
    (hw : g.Yields x w) {lookaheads : IdSet}
    (hrest : rest.head?.getD endOfInput ∈ lookaheads) :
    (w ++ rest).head?.getD endOfInput ∈ table.firstWith x lookaheads := by
  obtain ⟨hnil, hcons⟩ := h.first_of_yields hw
  rw [mem_firstWith]
  cases w with
  | nil => exact Or.inr ⟨hnil rfl, hrest⟩
  | cons t w => exact Or.inl (hcons t w rfl)

end FirstTable
end ParserGen
