import ParserGen.Template.Expansion.Substitution

/-!
# The vocabulary of a template

Expansion makes parameters out of what a template writes down: its names, and applications to no
more arguments than it has somewhere.  There are finitely many such parameters of a given depth, and
substitution does not leave them.
-/

namespace ParserGen

/-- Names, and the greatest number of arguments. -/
structure Vocabulary where
  names : List String
  width : Nat

namespace Parameter

mutual

/-- The names in a parameter. -/
def names : Parameter → List String
  | var name => [name]
  | app head args => head :: namesAll args

def namesAll : List Parameter → List String
  | [] => []
  | p :: rest => p.names ++ namesAll rest

end

mutual

/-- The greatest number of arguments in a parameter. -/
def width : Parameter → Nat
  | var _ => 0
  | app _ args => max args.length (widthAll args)

def widthAll : List Parameter → Nat
  | [] => 0
  | p :: rest => max p.width (widthAll rest)

end

mutual

/-- Whether a parameter is made of the names of a vocabulary, within its width. -/
def Over (v : Vocabulary) : Parameter → Prop
  | var name => name ∈ v.names
  | app head args => head ∈ v.names ∧ args.length ≤ v.width ∧ OverAll v args

def OverAll (v : Vocabulary) : List Parameter → Prop
  | [] => True
  | p :: rest => p.Over v ∧ OverAll v rest

end

theorem overAll_iff {v : Vocabulary} {ps : List Parameter} :
    OverAll v ps ↔ ∀ p ∈ ps, p.Over v := by
  induction ps with
  | nil => simp [OverAll]
  | cons p rest ih => simp [OverAll, ih]

mutual

/-- A parameter is over a vocabulary that has its names and its width. -/
theorem over_of_names_subset {v : Vocabulary} : ∀ p : Parameter,
    (∀ name ∈ p.names, name ∈ v.names) → p.width ≤ v.width → p.Over v
  | var name, hn, _ => hn name (by simp [names])
  | app head args, hn, hw => by
      simp only [width] at hw
      refine ⟨hn head (by simp [names]), by omega, ?_⟩
      exact overAll_of_names_subset args (fun n h => hn n (by simp [names, h])) (by omega)

theorem overAll_of_names_subset {v : Vocabulary} : ∀ ps : List Parameter,
    (∀ name ∈ namesAll ps, name ∈ v.names) → widthAll ps ≤ v.width → OverAll v ps
  | [], _, _ => trivial
  | p :: rest, hn, hw => by
      simp only [widthAll] at hw
      exact ⟨over_of_names_subset p (fun n h => hn n (by simp [namesAll, h])) (by omega),
        overAll_of_names_subset rest (fun n h => hn n (by simp [namesAll, h])) (by omega)⟩

end

/-- The arguments of a parameter over a vocabulary are over it, too. -/
theorem over_args {v : Vocabulary} {p : Parameter} (h : p.Over v) : ∀ q ∈ p.args, q.Over v := by
  cases p with
  | var name => simp [args]
  | app head args => exact overAll_iff.mp h.2.2

/-! ## Substitution stays within a vocabulary -/

theorem mem_of_lookup {env : Bindings} {name : String} {p : Parameter}
    (h : env.lookup name = some p) : (name, p) ∈ env := by
  obtain ⟨before, after, rfl, _⟩ := List.lookup_eq_some_iff.mp h
  simp

/-- Substitution keeps the number of arguments. -/
theorem length_substAll {env : Bindings} {ps qs : List Parameter}
    (h : substAll env ps = .ok qs) : qs.length = ps.length := by
  induction ps generalizing qs with
  | nil =>
    simp only [substAll, Except.ok.injEq] at h
    simp [← h]
  | cons p rest ih =>
    simp only [substAll] at h
    split at h
    · cases h
    · split at h
      · cases h
      · rename_i rest' hrest
        cases h
        simp [ih hrest]

/-- The name that a head is replaced by is in the vocabulary. -/
theorem over_substHead {v : Vocabulary} {env : Bindings} (henv : ∀ b ∈ env, b.2.Over v)
    {head name : String} (hh : head ∈ v.names) (h : substHead env head = .ok name) :
    name ∈ v.names := by
  simp only [substHead] at h
  split at h
  · cases h
    exact hh
  · rename_i actual hl
    cases h
    exact henv _ (mem_of_lookup hl)
  · cases h

mutual

/-- What comes of substituting parameters over a vocabulary is over it, too. -/
theorem over_subst {v : Vocabulary} {env : Bindings} (henv : ∀ b ∈ env, b.2.Over v) :
    ∀ p q : Parameter, p.Over v → subst env p = .ok q → q.Over v
  | var name, q, hp, h => by
      simp only [subst, Except.ok.injEq] at h
      subst h
      cases hl : env.lookup name with
      | none => exact hp
      | some actual => exact henv _ (mem_of_lookup hl)
  | app head args, q, hp, h => by
      simp only [subst] at h
      split at h
      · cases h
      · rename_i args' hargs
        split at h
        · cases h
        · rename_i head' hhead
          cases h
          have hname := over_substHead henv hp.1 hhead
          simp only [ofApplication]
          split
          · exact hname
          · refine ⟨hname, ?_, over_substAll henv args args' hp.2.2 hargs⟩
            rw [length_substAll hargs]
            exact hp.2.1

theorem over_substAll {v : Vocabulary} {env : Bindings} (henv : ∀ b ∈ env, b.2.Over v) :
    ∀ ps qs : List Parameter, OverAll v ps → substAll env ps = .ok qs → OverAll v qs
  | [], qs, _, h => by
      simp only [substAll, Except.ok.injEq] at h
      subst h
      trivial
  | p :: rest, qs, hps, h => by
      simp only [substAll] at h
      split at h
      · cases h
      · rename_i p' hp
        split at h
        · cases h
        · rename_i rest' hrest
          cases h
          exact ⟨over_subst henv p p' hps.1 hp, over_substAll henv rest rest' hps.2 hrest⟩

end

/-! ## Counting parameters -/

/-- The lists of at most `n` values of `xs`. -/
def listsUpTo {α : Type} (xs : List α) : Nat → List (List α)
  | 0 => [[]]
  | n + 1 => [] :: xs.flatMap fun x => (listsUpTo xs n).map (x :: ·)

/-- All lists of that length are listed. -/
theorem mem_listsUpTo {α : Type} {xs ys : List α} {n : Nat} (hlen : ys.length ≤ n)
    (hmem : ∀ y ∈ ys, y ∈ xs) : ys ∈ listsUpTo xs n := by
  induction n generalizing ys with
  | zero =>
    have : ys = [] := List.length_eq_zero_iff.mp (by omega)
    simp [listsUpTo, this]
  | succ n ih =>
    cases ys with
    | nil => simp [listsUpTo]
    | cons y ys =>
      simp only [List.length_cons] at hlen
      have hys := @ih ys (by omega) fun z hz => hmem z (by simp [hz])
      simp only [listsUpTo, List.mem_cons, List.mem_flatMap, List.mem_map]
      exact Or.inr ⟨y, hmem y (by simp), ys, hys, rfl⟩

/-- The parameters over a vocabulary that have at most the given depth. -/
def upTo (v : Vocabulary) : Nat → List Parameter
  | 0 => v.names.map var
  | depth + 1 =>
      v.names.map var ++
        v.names.flatMap fun head => (listsUpTo (upTo v depth) v.width).map (app head)

/-- A list of parameters is as deep as each of them, at least. -/
theorem le_depthAll {p : Parameter} {ps : List Parameter} (h : p ∈ ps) : p.depth ≤ depthAll ps := by
  induction ps with
  | nil => cases h
  | cons q rest ih =>
    simp only [depthAll]
    rcases List.mem_cons.mp h with rfl | h
    · omega
    · have := ih h
      omega

/-- All parameters over a vocabulary up to a depth are listed, so there are finitely many. -/
theorem mem_upTo {v : Vocabulary} {p : Parameter} {depth : Nat} (hp : p.Over v)
    (hd : p.depth ≤ depth) : p ∈ upTo v depth := by
  induction depth generalizing p with
  | zero =>
    cases p with
    | var name => exact List.mem_map.mpr ⟨name, hp, rfl⟩
    | app head args => simp [Parameter.depth] at hd
  | succ depth ih =>
    cases p with
    | var name =>
      simp only [upTo, List.mem_append]
      exact Or.inl (List.mem_map.mpr ⟨name, hp, rfl⟩)
    | app head args =>
      simp only [Parameter.depth, Nat.add_le_add_iff_right] at hd
      simp only [upTo, List.mem_append, List.mem_flatMap, List.mem_map]
      refine Or.inr ⟨head, hp.1, args, mem_listsUpTo hp.2.1 fun a ha => ?_, rfl⟩
      exact ih (overAll_iff.mp hp.2.2 a ha) (Nat.le_trans (le_depthAll ha) hd)

end Parameter

/-! ## The vocabulary of a template -/

namespace Template

/-- All symbol references of a template. -/
def references (t : Template) : List Parameter :=
  t.rules.flatMap fun rule => rule.branches.flatMap (·.elements)

/-- What a template writes down. -/
def vocabulary (t : Template) : Vocabulary where
  names := t.startName?.toList ++ Parameter.namesAll t.references
  width := Parameter.widthAll t.references

/-- What a template writes down is over its vocabulary. -/
theorem over_vocabulary {t : Template} {p : Parameter} (h : p ∈ t.references) :
    p.Over t.vocabulary := by
  refine Parameter.overAll_iff.mp (Parameter.overAll_of_names_subset t.references ?_ ?_) p h
  · intro name hname
    simp [vocabulary, hname]
  · exact Nat.le_refl _

/-- The start symbol of a template is over its vocabulary. -/
theorem over_vocabulary_start {t : Template} {name : String} (h : t.startName? = some name) :
    (Parameter.var name).Over t.vocabulary := by
  simp [Parameter.Over, vocabulary, h]

end Template
end ParserGen
