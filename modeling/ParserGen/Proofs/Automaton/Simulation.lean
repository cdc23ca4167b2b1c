import ParserGen.Proofs.Automaton.Coverage
import ParserGen.Proofs.Automaton.Reading
import ParserGen.Proofs.Automaton.Twins

/-!
# Merged automata simulate the one without merging

An automaton with merged states reads the same strings of symbols as the one without merging, and
each string leads to a state that extends the one it leads to without merging.  Nothing is put into
a merged state beyond that: its kernel is the union of kernels of states without merging.

Main results:

- Theorem `Automaton.Faithful.kernel_eq`: the kernel items of a state are those it was built from.
- Theorem `Automaton.Faithful.kernel_eq_unions`: a merged kernel is a union of kernels.
- Theorem `Automaton.merged_simulates_canonical`: what merging does to an automaton.
-/

namespace ParserGen

open ItemSet

/-! ## Unions of item sets -/

namespace ItemSet

/-- The union of several item sets, item by item. -/
def unions (sets : List ItemSet) : ItemSet := sets.foldr join ∅

theorem mem_unions {sets : List ItemSet} {i : Item} : i ∈ unions sets ↔ ∃ s ∈ sets, i ∈ s := by
  induction sets with
  | nil => simp [unions]
  | cons s sets ih =>
    rw [unions, List.foldr_cons, mem_join, ← unions, ih]
    simp only [List.mem_cons, exists_eq_or_imp]

theorem mem_lookaheads_unions {sets : List ItemSet} {i : Item} {t : Nat} :
    t ∈ (unions sets).lookaheads i ↔ ∃ s ∈ sets, t ∈ s.lookaheads i := by
  induction sets with
  | nil => simp [unions, lookaheads_eq]
  | cons s sets ih =>
    rw [unions, List.foldr_cons, lookaheads_join, IdSet.mem_union, ← unions, ih]
    simp only [List.mem_cons, exists_eq_or_imp]

/-- A set is the union of some sets that it extends, if each of its lookaheads is in one of them. -/
theorem eq_unions {s : ItemSet} {sets : List ItemSet} (hne : sets ≠ [])
    (hsub : ∀ u ∈ sets, s.Extends u)
    (hcover : ∀ i t, t ∈ s.lookaheads i → ∃ u ∈ sets, t ∈ u.lookaheads i) : s = unions sets := by
  obtain ⟨u, hu⟩ := List.exists_mem_of_ne_nil _ hne
  refine ext_lookaheads (fun i => ?_) (fun i => ?_)
  · rw [mem_unions]
    constructor
    · intro hi
      exact ⟨u, hu, (hsub u hu).mem_iff.mp hi⟩
    · rintro ⟨v, hv, hi⟩
      exact (hsub v hv).mem_iff.mpr hi
  · ext t
    rw [mem_lookaheads_unions]
    constructor
    · exact hcover i t
    · rintro ⟨v, hv, ht⟩
      exact (hsub v hv).lookaheads i t ht

end ItemSet

/-! ## The kernel of a state -/

/-- The kernel items of a state with their lookaheads. -/
def State.kernel (st : State) : ItemSet := st.items.filter fun i _ => i.isKernel

namespace State

theorem mem_kernel {st : State} {i : Item} :
    i ∈ st.kernel ↔ i ∈ st.items ∧ i.isKernel = true := by
  rw [mem_iff_isSome, mem_iff_isSome, kernel, Std.ExtTreeMap.getElem?_filter']
  cases st.items[i]? <;> simp [Option.filter]

theorem mem_lookaheads_kernel {st : State} {i : Item} {t : Nat} :
    t ∈ st.kernel.lookaheads i ↔ t ∈ st.items.lookaheads i ∧ i.isKernel = true := by
  rw [lookaheads_eq, lookaheads_eq, kernel, Std.ExtTreeMap.getElem?_filter']
  cases st.items[i]? with
  | none => simp
  | some l => cases i.isKernel <;> simp [Option.filter]

/-- The kernel items of a state depend on its core only. -/
theorem core_kernel_eq {st st' : State} (hcore : st.items.core = st'.items.core) :
    st.kernel.core = st'.kernel.core := by
  have hitems := core_eq_iff.mp hcore
  refine core_eq_iff.mpr fun i => ?_
  rw [mem_kernel, mem_kernel, hitems]

end State

namespace Item

theorem isKernel_iff {i : Item} : i.isKernel = true ↔ i.marker ≠ 0 ∨ i.rule = augmentedRule := by
  simp [isKernel, Nat.pos_iff_ne_zero]

theorem isKernel_of_mem_kernelItems {g : Grammar} {i : Item} (hi : i ∈ g.kernelItems) :
    i.isKernel = true := by
  rw [isKernel_iff]
  rcases List.mem_cons.mp hi with rfl | hi
  · exact Or.inr rfl
  · obtain ⟨r, _, hi⟩ := List.mem_flatMap.mp hi
    obtain ⟨m, _, rfl⟩ := List.mem_map.mp hi
    exact Or.inl (Nat.succ_ne_zero m)

end Item

namespace Automaton

variable {g : Grammar} {first : FirstTable} {mode mode' : MergeMode} {a b : Automaton}
  {kernel kernel' : Nat → ItemSet} {s : Nat} {st : State}

namespace Faithful

/-- The kernel items of a state include those it was built from, with their lookaheads. -/
theorem le_kernel (h : g.Augmented) (hf : a.Faithful g first mode kernel)
    (hst : a.states[s]? = some st) :
    (∀ i ∈ kernel s, i ∈ st.kernel) ∧
      ∀ i t, t ∈ (kernel s).lookaheads i → t ∈ st.kernel.lookaheads i := by
  have hkernel : ∀ i ∈ kernel s, i.isKernel = true := fun i hi =>
    Item.isKernel_of_mem_kernelItems ((hf.arises hst).mem_kernelItems h hi)
  constructor
  · intro i hi
    rw [State.mem_kernel, hf.items hst]
    exact ⟨(le_closure h.keyed _).1 _ hi, hkernel i hi⟩
  · intro i t ht
    rw [State.mem_lookaheads_kernel, hf.items hst]
    exact ⟨(le_closure h.keyed _).2 _ _ ht, hkernel i (mem_of_mem_lookaheads ht)⟩

/-- The closure adds no items whose marker has moved. -/
theorem mem_kernel_iff_of_moved (h : g.Augmented) (hfirst : first.Within g)
    (hf : a.Faithful g first mode kernel) (hst : a.states[s]? = some st) {i : Item}
    (hmoved : i.marker ≠ 0) : i ∈ st.kernel ↔ i ∈ kernel s := by
  refine ⟨fun hi => ?_, (hf.le_kernel h hst).1 i⟩
  rw [State.mem_kernel, hf.items hst, mem_closure h.keyed hfirst] at hi
  rcases hi.1.mem_or_start with hi | ⟨r, _, rfl⟩
  · exact hi
  · exact absurd rfl hmoved

/-- The closure adds no lookaheads to items whose marker has moved. -/
theorem lookaheads_kernel_of_moved (h : g.Augmented) (hfirst : first.Within g)
    (hf : a.Faithful g first mode kernel) (hst : a.states[s]? = some st) {i : Item}
    (hmoved : i.marker ≠ 0) : st.kernel.lookaheads i = (kernel s).lookaheads i := by
  ext t
  refine ⟨fun ht => ?_, (hf.le_kernel h hst).2 i t⟩
  rw [State.mem_lookaheads_kernel, hf.items hst, mem_lookaheads_closure h.keyed hfirst] at ht
  cases ht.1 with
  | kernel ht => exact ht
  | begins _ _ _ _ => exact absurd rfl hmoved
  | passed _ _ _ _ => exact absurd rfl hmoved

/-- The closure adds no kernel items, and no lookaheads to them. -/
theorem kernel_eq (havoid : g.AvoidsReserved) (h : g.Augmented) (hfirst : first.Within g)
    (hf : a.Faithful g first mode kernel) (hst : a.states[s]? = some st) :
    st.kernel = kernel s := by
  refine ext_lookaheads (fun i => ?_) (fun i => ?_)
  · by_cases hmoved : i.marker ≠ 0
    · exact hf.mem_kernel_iff_of_moved h hfirst hst hmoved
    · refine ⟨fun hi => ?_, (hf.le_kernel h hst).1 i⟩
      rw [State.mem_kernel, hf.items hst, mem_closure h.keyed hfirst] at hi
      exact hi.1.mem_of_augmented havoid h ((Item.isKernel_iff.mp hi.2).resolve_left hmoved)
  · by_cases hmoved : i.marker ≠ 0
    · exact hf.lookaheads_kernel_of_moved h hfirst hst hmoved
    · ext t
      refine ⟨fun ht => ?_, (hf.le_kernel h hst).2 i t⟩
      rw [State.mem_lookaheads_kernel, hf.items hst, mem_lookaheads_closure h.keyed hfirst] at ht
      exact ht.1.mem_of_augmented havoid h ((Item.isKernel_iff.mp ht.2).resolve_left hmoved)

/-- Every kernel that arises without merging is the kernel of a state of the automaton that is built
without merging. -/
theorem exists_state_of_arises (havoid : g.AvoidsReserved) (h : g.Augmented)
    (hfirst : first.Within g) (hf : a.Faithful g first .canonical kernel) {u : ItemSet}
    (hu : Arises g first .canonical u) :
    ∃ (s : Nat) (st : State), a.states[s]? = some st ∧ st.kernel = u := by
  obtain ⟨s, st, hst, hhosts⟩ := hf.exists_host h hfirst hu
  exact ⟨s, st, hst, (hf.kernel_eq havoid h hfirst hst).trans (hhosts.eq_of_canonical rfl)⟩

/-- The kernel of a merged state is the union of kernels of states without merging that have the
same core. -/
theorem kernel_eq_unions (havoid : g.AvoidsReserved) (h : g.Augmented) (hfirst : first.Within g)
    (hf : a.Faithful g first mode kernel) (hf' : b.Faithful g first .canonical kernel')
    (hst : a.states[s]? = some st) :
    ∃ parts : List State, parts ≠ [] ∧
      (∀ part ∈ parts, (∃ s' : Nat, b.states[s']? = some part) ∧
        part.kernel.core = st.kernel.core) ∧
      st.kernel = unions (parts.map State.kernel) := by
  have hcovered : Covered g first st.kernel := by
    rw [hf.kernel_eq havoid h hfirst hst]
    exact (hf.arises hst).covered h hfirst
  -- The parts are all states whose kernels this one extends.
  let parts := b.states.toList.filter fun part => st.kernel.subsumes part.kernel
  have hmem : ∀ part, part ∈ parts ↔
      (∃ s' : Nat, b.states[s']? = some part) ∧ st.kernel.Extends part.kernel := by
    intro part
    rw [List.mem_filter, subsumes_iff, List.mem_iff_getElem?]
    simp only [Array.getElem?_toList]
  have hpart : ∀ u, Arises g first .canonical u → st.kernel.Extends u →
      ∃ part ∈ parts, part.kernel = u := by
    intro u hu hext
    obtain ⟨s', part, hs', rfl⟩ := hf'.exists_state_of_arises havoid h hfirst hu
    exact ⟨part, (hmem part).mpr ⟨⟨s', hs'⟩, hext⟩, rfl⟩
  have hne : parts ≠ [] := by
    obtain ⟨u, hu, hext⟩ := hcovered.inhabited
    obtain ⟨part, hin, _⟩ := hpart u hu hext
    exact List.ne_nil_of_mem hin
  refine ⟨parts, hne, ?_, ?_⟩
  · intro part hin
    obtain ⟨hstate, hext⟩ := (hmem part).mp hin
    exact ⟨hstate, hext.core.symm⟩
  · refine eq_unions (by simpa using hne) ?_ ?_
    · intro u hu
      obtain ⟨part, hin, rfl⟩ := List.mem_map.mp hu
      exact ((hmem part).mp hin).2
    · intro i t ht
      obtain ⟨u, hu, hext, hut⟩ := hcovered.lookaheads ht
      obtain ⟨part, hin, rfl⟩ := hpart u hu hext
      exact ⟨part.kernel, List.mem_map_of_mem hin, hut⟩

/-- Two automata of a grammar read the same strings of symbols. -/
theorem exists_read_of_read (h : g.Augmented) (hfirst : first.Within g)
    (hf : a.Faithful g first mode kernel) (hf' : b.Faithful g first mode' kernel')
    {γ : List Symbol} {s : Nat} (hs : a.read? γ = some s) : ∃ s', b.read? γ = some s' := by
  induction γ using List.reverseRecOn generalizing s with
  | nil => exact ⟨initialState, rfl⟩
  | append_singleton γ x ih =>
    obtain ⟨u, st, hu, hst, hx⟩ := read?_concat_eq_some_iff.mp hs
    obtain ⟨u', hu'⟩ := ih hu
    obtain ⟨_, hpath⟩ := read?_eq_some_iff.mp hu
    obtain ⟨_, hpath'⟩ := read?_eq_some_iff.mp hu'
    obtain ⟨st', hst'⟩ := hf'.state_of_path hpath'
    obtain ⟨s', hs'⟩ := hf.exists_target_of_paths h hfirst hf' hpath hpath' hst hst' hx
    exact ⟨s', read?_concat_eq_some_iff.mpr ⟨u', st', hu', hst', hs'⟩⟩

end Faithful

/-- In every merge mode, an automaton reads the same strings of symbols as the one that is built
without merging; the state it is in then has the same items with the same lookaheads and maybe more;
and its kernels are unions of kernels with the same core that arise without merging. -/
theorem merged_simulates_canonical {declarations : List Declaration}
    {canonical merged : Automaton} (hg : Grammar.define declarations = .ok g)
    (havoid : g.AvoidsReserved) (hcanonical : (generate .canonical g).result = .ok canonical)
    (hmerged : (generate mode g).result = .ok merged) :
    (∀ γ, (∃ s, merged.read? γ = some s) ↔ ∃ s, canonical.read? γ = some s) ∧
      (∀ γ s s', canonical.read? γ = some s → merged.read? γ = some s' →
        ∃ st st', canonical.state? s = some st ∧ merged.state? s' = some st' ∧
          st'.items.core = st.items.core ∧
          ∀ i t, t ∈ st.items.lookaheads i → t ∈ st'.items.lookaheads i) ∧
      ∀ s' st', merged.state? s' = some st' → ∃ parts : List State, parts ≠ [] ∧
        (∀ st ∈ parts, (∃ s, canonical.state? s = some st) ∧ st.kernel.core = st'.kernel.core) ∧
        st'.kernel = unions (parts.map State.kernel) := by
  have h := Grammar.augmented_of_define hg
  have hfirst := FirstTable.within_ofGrammar g
  obtain ⟨_, hc⟩ := faithful_of_generate h hcanonical
  obtain ⟨_, hm⟩ := faithful_of_generate h hmerged
  refine ⟨fun γ => ⟨?_, ?_⟩, ?_, ?_⟩
  · rintro ⟨s, hs⟩
    exact hm.exists_read_of_read h hfirst hc hs
  · rintro ⟨s, hs⟩
    exact hc.exists_read_of_read h hfirst hm hs
  · intro γ s s' hs hs'
    obtain ⟨_, hpath⟩ := read?_eq_some_iff.mp hs
    obtain ⟨_, hpath'⟩ := read?_eq_some_iff.mp hs'
    obtain ⟨st, hst⟩ := hc.state_of_path hpath
    obtain ⟨st', hst'⟩ := hm.state_of_path hpath'
    have hext := hc.items_extend_of_paths h hfirst hm hpath hpath' hst hst'
    exact ⟨st, st', hst, hst', hext.core, hext.lookaheads⟩
  · intro s' st' hst'
    exact hm.kernel_eq_unions havoid h hfirst hc hst'

/-- Two runs of marks, each of them ended by a stop. -/
def twoRuns : List Declaration :=
  [.terminal "mark" none, .terminal "stop" none, .nonterminal "runs", .nonterminal "run",
    .rule 1 [.nonterminal 2, .nonterminal 2] none, .rule 2 [.terminal 1, .nonterminal 2] none,
    .rule 2 [.terminal 2] none]

set_option maxRecDepth 100000 in
theorem merged_simulates_canonical_twoRuns :
    ∃ g canonical merged, Grammar.define twoRuns = .ok g ∧ g.AvoidsReserved ∧
      (generate .canonical g).result = .ok canonical ∧ (generate .pgm g).result = .ok merged ∧
      merged.size < canonical.size ∧
      (∀ γ, (∃ s, merged.read? γ = some s) ↔ ∃ s, canonical.read? γ = some s) ∧
      (∀ γ s s', canonical.read? γ = some s → merged.read? γ = some s' →
        ∃ st st', canonical.state? s = some st ∧ merged.state? s' = some st' ∧
          st'.items.core = st.items.core ∧
          ∀ i t, t ∈ st.items.lookaheads i → t ∈ st'.items.lookaheads i) ∧
      ∀ s' st', merged.state? s' = some st' → ∃ parts : List State, parts ≠ [] ∧
        (∀ st ∈ parts, (∃ s, canonical.state? s = some st) ∧ st.kernel.core = st'.kernel.core) ∧
        st'.kernel = unions (parts.map State.kernel) := by
  have hboth : bothPass .canonical .pgm twoRuns (fun g canonical merged =>
      decide (g.AvoidsReserved ∧ merged.size < canonical.size)) = true := by
    decide +kernel
  obtain ⟨g, canonical, merged, hg, hcanonical, hmerged, hp⟩ := exists_of_bothPass hboth
  obtain ⟨havoid, hsmaller⟩ := of_decide_eq_true hp
  exact ⟨g, canonical, merged, hg, havoid, hcanonical, hmerged, hsmaller,
    merged_simulates_canonical hg havoid hcanonical hmerged⟩

end Automaton
end ParserGen
