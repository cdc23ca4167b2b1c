import ParserGen.Proofs.Automaton.Actions
import ParserGen.Proofs.Automaton.Resolution

/-!
# Merging weakly compatible kernels adds no conflicts

A conflict shows in two items that share a lookahead.  Any two items of a kernel that arises by
merging weakly compatible kernels share a lookahead only if they share it in a kernel that arises
without merging and was, in effect, merged into this one.  Conflicts, settled or not, are therefore
the same in both automata, up to the states they are found in.

Main results:

- Theorem `Arises.pairCovered`: the invariant of the kernels of Pager's method.
- Theorem `Automaton.Faithful.exists_host`: every kernel that arises without merging is hosted.
- Theorem `Automaton.pgm_conflicts_iff_canonical`: Pager's method neither adds nor hides conflicts.
-/

namespace ParserGen

open ItemSet

variable {g : Grammar} {first : FirstTable} {mode : MergeMode}

/-- If a set extends a kernel that arises without merging, what it leads to does so too. -/
theorem Arises.successor_of_extends (h : g.Augmented) (hfirst : first.Within g) {s u : ItemSet}
    (hu : Arises g first .canonical u) (hsu : s.Extends u) {x : Symbol}
    (hx : x ∈ (s.closure g first).nextSymbols g) :
    Arises g first .canonical (u.successor g first x) ∧
      (s.successor g first x).Extends (u.successor g first x) := by
  rw [nextSymbols_closure_of_core_eq h.keyed hfirst hsu.core] at hx
  exact ⟨hu.successor hx, hsu.successor h.keyed hfirst x⟩

namespace ItemSet

/-- Without merging no kernel is merged. -/
theorem decideMerge_canonical_ne_merge (s u : ItemSet) : s.decideMerge .canonical u ≠ .merge := by
  simp only [decideMerge]
  split <;> simp

/-! ## Where lookaheads come from -/

/-- A lookahead in a closure is there because of the core alone, or because an item of the kernel
passes it on. -/
theorem ClosureLookahead.origin {s : ItemSet} {i : Item} {t : Nat}
    (ht : ClosureLookahead g first s i t) :
    (∀ u : ItemSet, u.core = s.core → ClosureLookahead g first u i t) ∨
      ∃ k, t ∈ s.lookaheads k ∧ ∀ u : ItemSet, u.core = s.core → t ∈ u.lookaheads k →
        ClosureLookahead g first u i t := by
  induction ht with
  | @kernel i t ht => exact Or.inr ⟨i, ht, fun u _ hu => .kernel hu⟩
  | begins hi hrest hr hbegins =>
    exact Or.inl fun u hu => .begins (closureItem_of_core_eq hu.symm hi) hrest hr hbegins
  | passed _ hrest hr hnullable ih =>
    rcases ih with hall | ⟨k, hk, hpass⟩
    · exact Or.inl fun u hu => .passed (hall u hu) hrest hr hnullable
    · exact Or.inr ⟨k, hk, fun u hu huk => .passed (hpass u hu huk) hrest hr hnullable⟩

/-- Any two items that share a lookahead share it in a kernel that arises without merging and is
extended by this one. -/
structure PairCovered (g : Grammar) (first : FirstTable) (s : ItemSet) : Prop where
  inhabited : ∃ u, Arises g first .canonical u ∧ s.Extends u
  pairs : ∀ {i j : Item} {t : Nat}, t ∈ s.lookaheads i → t ∈ s.lookaheads j →
    ∃ u, Arises g first .canonical u ∧ s.Extends u ∧ t ∈ u.lookaheads i ∧ t ∈ u.lookaheads j

/-- What holds of the items of a kernel holds of those of its closure. -/
theorem PairCovered.closure (h : g.Augmented) (hfirst : first.Within g) {s : ItemSet}
    (hs : PairCovered g first s) {i j : Item} {t : Nat}
    (hi : t ∈ (s.closure g first).lookaheads i) (hj : t ∈ (s.closure g first).lookaheads j) :
    ∃ u, Arises g first .canonical u ∧ s.Extends u ∧
      t ∈ (u.closure g first).lookaheads i ∧ t ∈ (u.closure g first).lookaheads j := by
  simp only [mem_lookaheads_closure h.keyed hfirst] at hi hj ⊢
  rcases hi.origin with hi | ⟨k, hk, hi⟩
  · rcases hj.origin with hj | ⟨l, hl, hj⟩
    · obtain ⟨u, hu, hsu⟩ := hs.inhabited
      exact ⟨u, hu, hsu, hi u hsu.core.symm, hj u hsu.core.symm⟩
    · obtain ⟨u, hu, hsu, hul, _⟩ := hs.pairs hl hl
      exact ⟨u, hu, hsu, hi u hsu.core.symm, hj u hsu.core.symm hul⟩
  · rcases hj.origin with hj | ⟨l, hl, hj⟩
    · obtain ⟨u, hu, hsu, huk, _⟩ := hs.pairs hk hk
      exact ⟨u, hu, hsu, hi u hsu.core.symm huk, hj u hsu.core.symm⟩
    · obtain ⟨u, hu, hsu, huk, hul⟩ := hs.pairs hk hl
      exact ⟨u, hu, hsu, hi u hsu.core.symm huk, hj u hsu.core.symm hul⟩

/-- Pairs of lookaheads stay covered along an edge. -/
theorem PairCovered.successor (h : g.Augmented) (hfirst : first.Within g) {s : ItemSet}
    (hs : PairCovered g first s) {x : Symbol} (hx : x ∈ (s.closure g first).nextSymbols g) :
    PairCovered g first (s.successor g first x) := by
  constructor
  · obtain ⟨u, hu, hsu⟩ := hs.inhabited
    exact ⟨_, hu.successor_of_extends h hfirst hsu hx⟩
  · intro i j t hi hj
    obtain ⟨i', hi'x, rfl, hi'⟩ := mem_lookaheads_advanceOver.mp hi
    obtain ⟨j', hj'x, rfl, hj'⟩ := mem_lookaheads_advanceOver.mp hj
    obtain ⟨u, hu, hsu, hui, huj⟩ := hs.closure h hfirst hi' hj'
    obtain ⟨harises, hextends⟩ := hu.successor_of_extends h hfirst hsu hx
    exact ⟨_, harises, hextends, mem_lookaheads_advanceOver.mpr ⟨i', hi'x, rfl, hui⟩,
      mem_lookaheads_advanceOver.mpr ⟨j', hj'x, rfl, huj⟩⟩

/-- In weakly compatible sets, a lookahead that two items have in different sets is shared by them
in one of the sets. -/
theorem weaklyCompatible_spec {s u : ItemSet} (h : s.weaklyCompatible u = true)
    (hcore : s.core = u.core) {i j : Item} (hij : i ≠ j) {t : Nat} (hi : t ∈ s.lookaheads i)
    (hj : t ∈ u.lookaheads j) :
    t ∈ s.lookaheads i ∧ t ∈ s.lookaheads j ∨ t ∈ u.lookaheads i ∧ t ∈ u.lookaheads j := by
  simp only [weaklyCompatible, Bool.and_eq_true, List.all_eq_true, Bool.or_eq_true, beq_iff_eq,
    IdSet.includes_iff] at h
  have hmem : i ∈ s.core := mem_core.mpr (mem_of_mem_lookaheads hi)
  have hmem' : j ∈ s.core := hcore ▸ mem_core.mpr (mem_of_mem_lookaheads hj)
  rcases h.2 i hmem j hmem' with heq | hshared
  · exact absurd heq hij
  · have hcrossed : t ∈ crossed s u i j := by simp [crossed, hi, hj]
    simpa [shared] using hshared t hcrossed

/-- A set that is extended is covered as far as it shares lookaheads. -/
theorem PairCovered.of_extends {s big : ItemSet} (hs : PairCovered g first s)
    (hbig : big.Extends s) {i j : Item} {t : Nat} (hi : t ∈ s.lookaheads i)
    (hj : t ∈ s.lookaheads j) :
    ∃ u, Arises g first .canonical u ∧ big.Extends u ∧ t ∈ u.lookaheads i ∧
      t ∈ u.lookaheads j := by
  obtain ⟨u, hu, hsu, hui, huj⟩ := hs.pairs hi hj
  exact ⟨u, hu, hbig.trans hsu, hui, huj⟩

/-- Pairs of lookaheads stay covered when weakly compatible sets are joined. -/
theorem PairCovered.join {s u : ItemSet} (hs : PairCovered g first s) (hu : PairCovered g first u)
    (hcore : s.core = u.core) (hweak : s.weaklyCompatible u = true) :
    PairCovered g first (s.join u) := by
  obtain ⟨hjoins, hjoinu⟩ := extends_join hcore
  have hcross : ∀ {i j : Item} {t : Nat}, t ∈ s.lookaheads i → t ∈ u.lookaheads j →
      ∃ c, Arises g first .canonical c ∧ (s.join u).Extends c ∧ t ∈ c.lookaheads i ∧
        t ∈ c.lookaheads j := by
    intro i j t hi hj
    by_cases hij : i = j
    · subst hij
      exact hs.of_extends hjoins hi hi
    · rcases weaklyCompatible_spec hweak hcore hij hi hj with ⟨hi, hj⟩ | ⟨hi, hj⟩
      · exact hs.of_extends hjoins hi hj
      · exact hu.of_extends hjoinu hi hj
  constructor
  · obtain ⟨c, hc, hsc⟩ := hs.inhabited
    exact ⟨c, hc, hjoins.trans hsc⟩
  · intro i j t hi hj
    rw [lookaheads_join, IdSet.mem_union] at hi hj
    rcases hi with hi | hi
    · rcases hj with hj | hj
      · exact hs.of_extends hjoins hi hj
      · exact hcross hi hj
    · rcases hj with hj | hj
      · obtain ⟨c, hc, hext, hcj, hci⟩ := hcross hj hi
        exact ⟨c, hc, hext, hci, hcj⟩
      · exact hu.of_extends hjoinu hi hj

end ItemSet

/-- The kernels of Pager's method share lookaheads only as kernels do that are not merged. -/
theorem Arises.pairCovered (h : g.Augmented) (hfirst : first.Within g) {kernel : ItemSet}
    (hk : Arises g first .pgm kernel) : PairCovered g first kernel := by
  induction hk with
  | initial => exact ⟨⟨_, .initial, .refl _⟩, fun hi hj => ⟨_, .initial, .refl _, hi, hj⟩⟩
  | successor _ hx ih => exact ih.successor h hfirst hx
  | merged _ _ hcore hmerge ih ih' =>
    apply ih.join ih' hcore
    simp only [decideMerge] at hmerge
    split at hmerge
    · cases hmerge
    · split at hmerge
      · assumption
      · cases hmerge

/-! ## Hosts of kernels that are not merged -/

/-- A host leads to hosts of what the hosted kernel leads to. -/
theorem Hosts.successor (h : g.Augmented) (hfirst : first.Within g) {big small : ItemSet}
    (hh : Hosts mode big small) (x : Symbol) :
    Hosts mode (big.successor g first x) (small.successor g first x) :=
  ⟨hh.extends_.successor h.keyed hfirst x, fun hmode => by rw [hh.eq_of_canonical hmode]⟩

namespace Automaton.Faithful

variable {a : Automaton} {kernel : Nat → ItemSet} {s : Nat} {st : State}

/-- A state has an edge on every symbol after a marker. -/
theorem target?_of_mem_nextSymbols (hf : a.Faithful g first mode kernel)
    (hst : a.states[s]? = some st) {x : Symbol}
    (hx : x ∈ ((kernel s).closure g first).nextSymbols g) : ∃ t, st.target? x = some t := by
  rw [hf.exists_target_iff hst, hf.items hst]
  exact mem_nextSymbols.mp hx

/-- Every kernel that arises without merging is hosted by a state. -/
theorem exists_host (h : g.Augmented) (hfirst : first.Within g)
    (hf : a.Faithful g first mode kernel) {small : ItemSet}
    (hsmall : Arises g first .canonical small) :
    ∃ s st, a.states[s]? = some st ∧ Hosts mode (kernel s) small := by
  induction hsmall with
  | initial =>
    obtain ⟨st, hst⟩ := state_of_lt hf.pos
    exact ⟨_, st, hst, hf.initial⟩
  | @successor small x _ hx ih =>
    obtain ⟨s, st, hst, hhosts⟩ := ih
    rw [← nextSymbols_closure_of_core_eq h.keyed hfirst hhosts.extends_.core] at hx
    obtain ⟨t, ht⟩ := hf.target?_of_mem_nextSymbols hst hx
    obtain ⟨hlt, htarget⟩ := hf.targets hst ((hf.target?_iff hst).mp ht)
    obtain ⟨st', hst'⟩ := state_of_lt hlt
    exact ⟨t, st', hst', htarget.trans (hhosts.successor h hfirst x)⟩
  | merged _ _ _ hmerge _ _ => exact absurd hmerge (decideMerge_canonical_ne_merge _ _)

/-- Without merging, the closure of every kernel that arises is that of a state. -/
theorem exists_closure_of_arises (h : g.Augmented) (hfirst : first.Within g)
    (hf : a.Faithful g first .canonical kernel) {small : ItemSet}
    (hsmall : Arises g first .canonical small) :
    ∃ (s : Nat) (st : State), a.states[s]? = some st ∧ st.items = small.closure g first := by
  obtain ⟨s, st, hst, hhosts⟩ := hf.exists_host h hfirst hsmall
  exact ⟨s, st, hst, by rw [hf.items hst, hhosts.eq_of_canonical rfl]⟩

/-- Which shifts there are depends on the core only. -/
theorem target?_isSome_of_core_eq {b : Automaton} {kernel' : Nat → ItemSet} {mode' : MergeMode}
    {s' : Nat} {st' : State} (hf : a.Faithful g first mode kernel)
    (hf' : b.Faithful g first mode' kernel') (hst : a.states[s]? = some st)
    (hst' : b.states[s']? = some st') (hcore : st.items.core = st'.items.core) (x : Symbol) :
    st.target? x = none ↔ st'.target? x = none := by
  have hiff : (∃ t, st.target? x = some t) ↔ ∃ t, st'.target? x = some t := by
    rw [hf.exists_target_iff hst, hf'.exists_target_iff hst']
    simp only [core_eq_iff.mp hcore]
  rw [← Option.not_isSome_iff_eq_none, ← Option.not_isSome_iff_eq_none, Option.isSome_iff_exists,
    Option.isSome_iff_exists, hiff]

end Automaton.Faithful

/-! ## Conflicts of two automata -/

namespace Automaton

/-- The kernel items of a state. -/
def kernelCore (a : Automaton) (s : Nat) : List Item :=
  match a.state? s with
  | some st => st.items.kernelRows.map (·.1)
  | none => []

/-- A state with the given kernel items has a conflict of the given kind on a terminal. -/
def ConflictsOn (a : Automaton) (core : List Item) (t : Nat) (kind : ConflictKind) : Prop :=
  ∃ c ∈ a.conflicts, a.kernelCore c.state = core ∧ c.terminal = t ∧ c.kind = kind

/-- A state with the given kernel items has a conflict on a terminal that precedences do not
settle. -/
def UnresolvedOn (a : Automaton) (core : List Item) (t : Nat) : Prop :=
  ∃ c ∈ a.conflicts, a.kernelCore c.state = core ∧ c.terminal = t ∧ c.isResolved = false

/-- The kernel core of a state is made of its kernel items. -/
theorem kernelCore_eq {a : Automaton} {s : Nat} {st : State} (hst : a.states[s]? = some st) :
    a.kernelCore s = st.items.core.filter (·.isKernel) := by
  have hrows : st.items.core = st.items.toList.map (·.1) :=
    Std.ExtTreeMap.map_fst_toList_eq_keys.symm
  rw [kernelCore, state?, hst, hrows, List.filter_map]
  rfl

/-- Two competing reductions, maybe the same one twice, with the shift they compete with. -/
def CompetesOn (g : Grammar) (a : Automaton) (core : List Item) (t : Nat)
    (p : Option Nat → Nat → Nat → Prop) : Prop :=
  ∃ s st, a.states[s]? = some st ∧ a.kernelCore s = core ∧
    ∃ r ∈ reductionsOn g st.items t, ∃ r' ∈ reductionsOn g st.items t,
      p (st.target? (.terminal t)) r r'

/-- Any two reductions that compete in a state of `a` also compete in some state of `b` that has the
same core. -/
def Mirrors (g : Grammar) (a b : Automaton) : Prop :=
  ∀ (s : Nat) (st : State), a.states[s]? = some st → ∀ t,
    ∀ r ∈ reductionsOn g st.items t, ∀ r' ∈ reductionsOn g st.items t,
      ∃ (s' : Nat) (st' : State), b.states[s']? = some st' ∧ st.items.core = st'.items.core ∧
        r ∈ reductionsOn g st'.items t ∧ r' ∈ reductionsOn g st'.items t

namespace Faithful

variable {a : Automaton} {kernel : Nat → ItemSet} {s : Nat} {st : State}

/-- Conflicts in terms of competing reductions. -/
theorem conflictsOn_iff (h : g.Augmented) (hfirst : first.Within g)
    (hf : a.Faithful g first mode kernel) {core : List Item} {t : Nat} {kind : ConflictKind} :
    a.ConflictsOn core t kind ↔
      a.CompetesOn g core t fun shift r r' => Collides shift kind r r' := by
  constructor
  · rintro ⟨c, hc, hcore, rfl, rfl⟩
    obtain ⟨s, st, hst, t, kind, resolution, hchoice, rfl⟩ := hf.mem_conflicts.mp hc
    exact ⟨s, st, hst, hcore, (exists_resolution_iff
      (nodup_reductionsOn h (hf.fits h hfirst hst) t)).mp ⟨resolution, hchoice⟩⟩
  · rintro ⟨s, st, hst, hcore, hcompete⟩
    obtain ⟨resolution, hchoice⟩ := (exists_resolution_iff
      (nodup_reductionsOn h (hf.fits h hfirst hst) t)).mpr hcompete
    exact ⟨_, hf.mem_conflicts.mpr ⟨s, st, hst, t, kind, resolution, hchoice, rfl⟩, hcore, rfl, rfl⟩

/-- Conflicts that precedences do not settle in terms of competing reductions. -/
theorem unresolvedOn_iff (h : g.Augmented) (hfirst : first.Within g)
    (hf : a.Faithful g first mode kernel) {core : List Item} {t : Nat} :
    a.UnresolvedOn core t ↔ a.CompetesOn g core t (Disputed g t) := by
  constructor
  · rintro ⟨c, hc, hcore, rfl, hunresolved⟩
    obtain ⟨s, st, hst, t, kind, resolution, hchoice, rfl⟩ := hf.mem_conflicts.mp hc
    cases resolution with
    | precedence => cases hunresolved
    | arbitrary reason =>
      exact ⟨s, st, hst, hcore, (exists_arbitrary_iff
        (nodup_reductionsOn h (hf.fits h hfirst hst) t)).mp ⟨kind, reason, hchoice⟩⟩
  · rintro ⟨s, st, hst, hcore, hcompete⟩
    obtain ⟨kind, reason, hchoice⟩ := (exists_arbitrary_iff
      (nodup_reductionsOn h (hf.fits h hfirst hst) t)).mpr hcompete
    exact ⟨_, hf.mem_conflicts.mpr ⟨s, st, hst, t, kind, _, hchoice, rfl⟩, hcore, rfl, rfl⟩

/-- What competes in an automaton competes in one that mirrors it. -/
theorem competesOn_of_mirrors {b : Automaton} {kernel' : Nat → ItemSet} {mode' : MergeMode}
    (hf : a.Faithful g first mode kernel) (hf' : b.Faithful g first mode' kernel')
    (hmirrors : Mirrors g a b) {p : Option Nat → Nat → Nat → Prop}
    (hshift : ∀ x y r r', (x = none ↔ y = none) → p x r r' → p y r r')
    {core : List Item} {t : Nat} (hcompete : a.CompetesOn g core t p) :
    b.CompetesOn g core t p := by
  obtain ⟨s, st, hst, hcore, r, hr, r', hr', hp⟩ := hcompete
  obtain ⟨s', st', hst', hsame, hr, hr'⟩ := hmirrors s st hst t r hr r' hr'
  refine ⟨s', st', hst', ?_, r, hr, r', hr', ?_⟩
  · rw [← hcore, kernelCore_eq hst, kernelCore_eq hst', hsame]
  · exact hshift _ _ _ _ (hf.target?_isSome_of_core_eq hf' hst hst' hsame _) hp

/-- Every automaton mirrors the one that is built without merging: a state that hosts a kernel has
all its reductions. -/
theorem mirrors_of_canonical (h : g.Augmented) (hfirst : first.Within g) {b : Automaton}
    {kernel' : Nat → ItemSet} (hf : a.Faithful g first .canonical kernel)
    (hf' : b.Faithful g first mode kernel') : Mirrors g a b := by
  intro s st hst t r hr r' hr'
  have hsmall := hf.arises hst
  obtain ⟨s', st', hst', hhosts⟩ := hf'.exists_host h hfirst hsmall
  have hclosure : st'.items.Extends st.items := by
    rw [hf'.items hst', hf.items hst]
    exact hhosts.extends_.closure h.keyed hfirst
  exact ⟨s', st', hst', hclosure.core.symm, reductionsOn_of_extends hclosure hr,
    reductionsOn_of_extends hclosure hr'⟩

/-- Reductions that compete in a state of Pager's method compete in a state that is built without
merging and has the same core, along with no others. -/
theorem exists_unmerged (h : g.Augmented) (hfirst : first.Within g) {b : Automaton}
    {kernel' : Nat → ItemSet} (hf : a.Faithful g first .pgm kernel)
    (hf' : b.Faithful g first .canonical kernel') (hst : a.states[s]? = some st) {t r r' : Nat}
    (hr : r ∈ reductionsOn g st.items t) (hr' : r' ∈ reductionsOn g st.items t) :
    ∃ (s' : Nat) (st' : State), b.states[s']? = some st' ∧ st.items.Extends st'.items ∧
      r ∈ reductionsOn g st'.items t ∧ r' ∈ reductionsOn g st'.items t := by
  obtain ⟨i, hi, hcomplete, ht, hrule⟩ := mem_reductionsOn.mp hr
  obtain ⟨i', hi', hcomplete', ht', hrule'⟩ := mem_reductionsOn.mp hr'
  rw [hf.items hst] at ht ht'
  obtain ⟨small, hsmall, hextends, hti, hti'⟩ :=
    ((hf.arises hst).pairCovered h hfirst).closure h hfirst ht ht'
  obtain ⟨s', st', hst', hitems⟩ := hf'.exists_closure_of_arises h hfirst hsmall
  rw [← hitems] at hti hti'
  refine ⟨s', st', hst', ?_, ?_, ?_⟩
  · rw [hf.items hst, hitems]
    exact hextends.closure h.keyed hfirst
  · exact mem_reductionsOn.mpr ⟨i, mem_of_mem_lookaheads hti, hcomplete, hti, hrule⟩
  · exact mem_reductionsOn.mpr ⟨i', mem_of_mem_lookaheads hti', hcomplete', hti', hrule'⟩

/-- The automaton that is built without merging mirrors that of Pager's method. -/
theorem mirrors_canonical (h : g.Augmented) (hfirst : first.Within g) {b : Automaton}
    {kernel' : Nat → ItemSet} (hf : a.Faithful g first .pgm kernel)
    (hf' : b.Faithful g first .canonical kernel') : Mirrors g a b := by
  intro s st hst t r hr r' hr'
  obtain ⟨s', st', hst', hextends, hr, hr'⟩ := hf.exists_unmerged h hfirst hf' hst hr hr'
  exact ⟨s', st', hst', hextends.core, hr, hr'⟩

/-- If Pager's method overrules a shift, or settles a conflict among reductions, so does a state
with the same core that is built without merging. -/
theorem exists_overruled (h : g.Augmented) (hfirst : first.Within g) {b : Automaton}
    {kernel' : Nat → ItemSet} (hf : a.Faithful g first .pgm kernel)
    (hf' : b.Faithful g first .canonical kernel') (hst : a.states[s]? = some st) {t : Nat}
    (hover : Overruled g t (st.target? (.terminal t)) (reductionsOn g st.items t)) :
    ∃ (s' : Nat) (st' : State), b.states[s']? = some st' ∧ st.items.core = st'.items.core ∧
      Overruled g t (st'.target? (.terminal t)) (reductionsOn g st'.items t) := by
  cases hshift : st.target? (.terminal t) with
  | none =>
    rw [hshift, overruled_none_iff (nodup_reductionsOn h (hf.fits h hfirst hst) t)] at hover
    obtain ⟨r, hr, r', hr', hne⟩ := hover
    obtain ⟨s', st', hst', hextends, hr, hr'⟩ := hf.exists_unmerged h hfirst hf' hst hr hr'
    refine ⟨s', st', hst', hextends.core, ?_⟩
    rw [(hf.target?_isSome_of_core_eq hf' hst hst' hextends.core _).mp hshift,
      overruled_none_iff (nodup_reductionsOn h (hf'.fits h hfirst hst') t)]
    exact ⟨r, hr, r', hr', hne⟩
  | some next =>
    rw [hshift, overruled_some_iff] at hover
    obtain ⟨hne, p, hp, hagreed⟩ := hover
    obtain ⟨r, hr⟩ := List.exists_mem_of_ne_nil _ hne
    obtain ⟨s', st', hst', hextends, hr, _⟩ := hf.exists_unmerged h hfirst hf' hst hr hr
    refine ⟨s', st', hst', hextends.core, ?_⟩
    cases hshift' : st'.target? (.terminal t) with
    | none =>
      rw [(hf.target?_isSome_of_core_eq hf' hst hst' hextends.core _).mpr hshift'] at hshift
      cases hshift
    | some next' =>
      rw [overruled_some_iff]
      refine ⟨List.ne_nil_of_mem hr, p, hp, fun r' hr' => ?_⟩
      exact hagreed r' (reductionsOn_of_extends hextends hr')

end Faithful

theorem collides_of_shift_iff {kind : ConflictKind} (x y : Option Nat) (r r' : Nat)
    (hxy : x = none ↔ y = none) (h : Collides x kind r r') : Collides y kind r r' := by
  cases kind with
  | shiftReduce => exact fun hy => h (hxy.mpr hy)
  | reduceReduce => exact ⟨hxy.mp h.1, h.2⟩

theorem disputed_of_shift_iff {t : Nat} (x y : Option Nat) (r r' : Nat)
    (hxy : x = none ↔ y = none) (h : Disputed g t x r r') : Disputed g t y r r' := by
  cases x with
  | none =>
    rw [hxy.mp rfl]
    exact h
  | some next =>
    cases y with
    | none => cases hxy.mpr rfl
    | some next' => exact h

/-- Pager's method neither adds nor hides conflicts: in terms of kernel items, terminals and kinds,
its automaton has the conflicts of the one that is built without merging, precedences leave the same
ones unsettled, and there are none if there were none. -/
theorem pgm_conflicts_iff_canonical {declarations : List Declaration} {g : Grammar}
    {canonical merged : Automaton} (hg : Grammar.define declarations = .ok g)
    (hcanonical : (generate .canonical g).result = .ok canonical)
    (hmerged : (generate .pgm g).result = .ok merged) :
    (∀ core t kind, merged.ConflictsOn core t kind ↔ canonical.ConflictsOn core t kind) ∧
      (∀ core t, merged.UnresolvedOn core t ↔ canonical.UnresolvedOn core t) ∧
      (canonical.conflicts = [] → merged.conflicts = []) := by
  have h := Grammar.augmented_of_define hg
  have hfirst := FirstTable.within_ofGrammar g
  obtain ⟨_, hc⟩ := faithful_of_generate h hcanonical
  obtain ⟨_, hm⟩ := faithful_of_generate h hmerged
  have hthere := hc.mirrors_of_canonical h hfirst hm
  have hback := hm.mirrors_canonical h hfirst hc
  have hconflicts : ∀ core t kind,
      merged.ConflictsOn core t kind ↔ canonical.ConflictsOn core t kind := by
    intro core t kind
    rw [hm.conflictsOn_iff h hfirst, hc.conflictsOn_iff h hfirst]
    exact ⟨hm.competesOn_of_mirrors hc hback collides_of_shift_iff,
      hc.competesOn_of_mirrors hm hthere collides_of_shift_iff⟩
  refine ⟨hconflicts, ?_, ?_⟩
  · intro core t
    rw [hm.unresolvedOn_iff h hfirst, hc.unresolvedOn_iff h hfirst]
    exact ⟨hm.competesOn_of_mirrors hc hback disputed_of_shift_iff,
      hc.competesOn_of_mirrors hm hthere disputed_of_shift_iff⟩
  · intro hnone
    refine List.eq_nil_iff_forall_not_mem.mpr fun c hmem => ?_
    obtain ⟨c', hmem', _⟩ := (hconflicts _ _ _).mp ⟨c, hmem, rfl, rfl, rfl⟩
    rw [hnone] at hmem'
    cases hmem'

set_option maxRecDepth 100000 in
theorem pgm_conflicts_iff_canonical_ambiguousSum :
    ∃ g canonical merged, Grammar.define ambiguousSum = .ok g ∧
      (generate .canonical g).result = .ok canonical ∧ (generate .pgm g).result = .ok merged ∧
      canonical.conflicts ≠ [] ∧
      (∀ core t kind, merged.ConflictsOn core t kind ↔ canonical.ConflictsOn core t kind) ∧
      (∀ core t, merged.UnresolvedOn core t ↔ canonical.UnresolvedOn core t) ∧
      (canonical.conflicts = [] → merged.conflicts = []) := by
  have hboth : bothPass .canonical .pgm ambiguousSum (fun _ canonical _ =>
      decide (canonical.conflicts ≠ [])) = true := by
    decide +kernel
  obtain ⟨g, canonical, merged, hg, hcanonical, hmerged, hp⟩ := exists_of_bothPass hboth
  exact ⟨g, canonical, merged, hg, hcanonical, hmerged, of_decide_eq_true hp,
    pgm_conflicts_iff_canonical hg hcanonical hmerged⟩

end Automaton
end ParserGen
