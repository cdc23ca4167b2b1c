import ParserGen.Proofs.Automaton.Size

/-!
# Merging by core alone yields the quotient by cores

An automaton in which all kernels with the same core share a state is not built by putting the
states of another automaton together.  It grows in place: a state takes in lookaheads and is looked
at again.  In the end it is the quotient nevertheless.  No two of its states have the same core, as
nothing is ever told apart; nothing is lost, as each state extends those it is the counterpart of;
and nothing is made up, as each lookahead arises without merging.

Main results:

- Theorem `Automaton.Faithful.core_kernel_eq_iff`: when states have the same kernel items.
- Theorem `Automaton.exists_hasCore`: every automaton of a grammar has the same cores.
- Theorem `Automaton.Faithful.exists_unmerged_lookahead`: where lookaheads of kernels come from.
- Theorem `Automaton.lalr_is_quotient`: the automaton is the quotient of the one without merging.
-/

namespace ParserGen

open ItemSet

variable {g : Grammar} {first : FirstTable} {mode mode' : MergeMode}

/-- Merging by core alone tells no kernels apart. -/
theorem Apart.ne_lalr {big big' : ItemSet} (h : Apart g first mode big big') : mode ≠ .lalr := by
  obtain ⟨_, _, _, _, _, _, _, hdistinct⟩ := h
  rcases decideMerge_eq_distinct_iff.mp hdistinct with ⟨rfl, _⟩ | ⟨rfl, _⟩
  · simp
  · simp

/-- A kernel is known by its items whose markers have moved. -/
theorem Arises.core_eq_of_moved {kernel kernel' : ItemSet} (hk : Arises g first mode kernel)
    (hk' : Arises g first mode' kernel')
    (hmem : ∀ i : Item, i.marker ≠ 0 → (i ∈ kernel ↔ i ∈ kernel')) :
    kernel.core = kernel'.core := by
  rcases hk.initial_or_moved with rfl | hmoved
  · rw [hk'.eq_initialKernel hmem]
  · rcases hk'.initial_or_moved with rfl | hmoved'
    · rw [hk.eq_initialKernel fun i hi => (hmem i hi).symm]
    · refine core_eq_iff.mpr fun i => ?_
      exact ⟨fun hi => (hmem i (hmoved i hi)).mp hi, fun hi => (hmem i (hmoved' i hi)).mpr hi⟩

/-- If the items of a state extend those of another one, so do its kernel items. -/
theorem State.kernel_extends {st st' : State} (h : st.items.Extends st'.items) :
    st.kernel.Extends st'.kernel where
  core := core_kernel_eq h.core
  lookaheads i t ht := by
    rw [mem_lookaheads_kernel] at ht ⊢
    exact ht.imp_left (h.lookaheads i t)

namespace Automaton

variable {a b : Automaton} {kernel kernel' : Nat → ItemSet} {s t : Nat} {st st' : State}

namespace Faithful

/-- States have the same kernel items if and only if they were built from kernels with the same
items. -/
theorem core_kernel_eq_iff (h : g.Augmented) (hfirst : first.Within g)
    (hf : a.Faithful g first mode kernel) (hf' : b.Faithful g first mode' kernel')
    (hst : a.states[s]? = some st) (hst' : b.states[t]? = some st') :
    st.kernel.core = st'.kernel.core ↔ (kernel s).core = (kernel' t).core := by
  constructor
  · intro hcore
    refine (hf.arises hst).core_eq_of_moved (hf'.arises hst') fun i hmoved => ?_
    rw [← hf.mem_kernel_iff_of_moved h hfirst hst hmoved, core_eq_iff.mp hcore,
      hf'.mem_kernel_iff_of_moved h hfirst hst' hmoved]
  · intro hcore
    refine State.core_kernel_eq ?_
    rw [hf.items hst, hf'.items hst']
    exact core_closure h.keyed hfirst hcore

/-- Each lookahead of a kernel item is one in a state without merging that has the same kernel
items. -/
theorem exists_unmerged_lookahead (h : g.Augmented) (hfirst : first.Within g)
    (hf : a.Faithful g first mode kernel) (hf' : b.Faithful g first .canonical kernel')
    (hst : a.states[s]? = some st) {i : Item} {x : Nat} (hx : x ∈ st.kernel.lookaheads i) :
    ∃ (t : Nat) (st' : State), b.states[t]? = some st' ∧ st'.kernel.core = st.kernel.core ∧
      x ∈ st'.kernel.lookaheads i := by
  obtain ⟨hx, hkernel⟩ := State.mem_lookaheads_kernel.mp hx
  rw [hf.items hst] at hx
  obtain ⟨small, hsmall, hextends, hx⟩ := ((hf.arises hst).covered h hfirst).closure h hfirst hx
  obtain ⟨t, st', hst', hitems⟩ := hf'.exists_closure_of_arises h hfirst hsmall
  refine ⟨t, st', hst', State.core_kernel_eq ?_, ?_⟩
  · rw [hf.items hst, hitems]
    exact (hextends.closure h.keyed hfirst).core.symm
  · rw [State.mem_lookaheads_kernel, hitems]
    exact ⟨hx, hkernel⟩

end Faithful

/-! ## The cores of an automaton -/

/-- State `s` has the given kernel items. -/
def HasCore (a : Automaton) (s : Nat) (core : List Item) : Prop :=
  ∃ st, a.state? s = some st ∧ st.kernel.core = core

/-- Every automaton of a grammar has the same cores. -/
theorem exists_hasCore (h : g.Augmented) (ha : (generate mode g).result = .ok a)
    (hb : (generate mode' g).result = .ok b) {core : List Item} (hs : a.HasCore s core) :
    ∃ t, b.HasCore t core := by
  have hfirst := FirstTable.within_ofGrammar g
  obtain ⟨_, hf⟩ := faithful_of_generate h ha
  obtain ⟨_, hf'⟩ := faithful_of_generate h hb
  obtain ⟨st, hst, rfl⟩ := hs
  obtain ⟨t, st', hst', halike⟩ := exists_readAlike h ha hb (Array.getElem?_eq_some_iff.mp hst).1
  exact ⟨t, st', hst', (hf'.core_kernel_eq_iff h hfirst hf hst' hst).mpr
    (hf.core_eq_of_readAlike h hfirst hf' halike)⟩

/-- When merging by core alone, a core belongs to one state only. -/
theorem eq_of_hasCore_of_lalr (h : g.Augmented) (ha : (generate .lalr g).result = .ok a)
    {core : List Item} (hs : a.HasCore s core) (ht : a.HasCore t core) : s = t := by
  obtain ⟨_, _, hf, hseparated⟩ := exists_separated h (.refl g) ha
  obtain ⟨st, hst, rfl⟩ := hs
  obtain ⟨st', hst', hcore⟩ := ht
  by_contra hne
  have hsame := (hf.core_kernel_eq_iff h (FirstTable.within_ofGrammar g) hf hst hst').mp hcore.symm
  exact (hseparated s (Array.getElem?_eq_some_iff.mp hst).1 t (Array.getElem?_eq_some_iff.mp hst').1
    hne hsame).ne_lalr rfl

/-- When merging by core alone, a state extends all states without merging that have its core. -/
theorem kernel_extends_of_lalr (h : g.Augmented) (ha : (generate .canonical g).result = .ok a)
    (hb : (generate .lalr g).result = .ok b) (hst : a.state? s = some st)
    (hst' : b.state? t = some st') (hcore : st.kernel.core = st'.kernel.core) :
    st'.kernel.Extends st.kernel := by
  have hfirst := FirstTable.within_ofGrammar g
  obtain ⟨_, hf⟩ := faithful_of_generate h ha
  obtain ⟨_, hf'⟩ := faithful_of_generate h hb
  obtain ⟨t', own, hown, halike⟩ := exists_readAlike h ha hb (Array.getElem?_eq_some_iff.mp hst).1
  have hextends := State.kernel_extends (hf.items_extend_of_readAlike h hfirst hf' hst hown halike)
  obtain rfl := eq_of_hasCore_of_lalr h hb ⟨own, hown, hextends.core⟩ ⟨st', hst', hcore.symm⟩
  obtain rfl := Option.some.inj (hown.symm.trans hst')
  exact hextends

/-- The states with the given kernel items. -/
def statesWithCore (a : Automaton) (core : List Item) : List State :=
  a.states.toList.filter fun st => st.kernel.core = core

theorem mem_statesWithCore {core : List Item} :
    st ∈ a.statesWithCore core ↔ (∃ s, a.state? s = some st) ∧ st.kernel.core = core := by
  rw [statesWithCore, List.mem_filter, decide_eq_true_eq, List.mem_iff_getElem?]
  simp only [Array.getElem?_toList, state?]

/-- Merging by core alone yields the quotient of the automaton without merging by cores: each core
of that automaton belongs to exactly one state, there are no other states, and the kernel of a state
is the union of the kernels with its core.  Pager's method has states with all of these cores and no
others, too. -/
theorem lalr_is_quotient {declarations : List Declaration} {canonical lalr : Automaton}
    (hg : Grammar.define declarations = .ok g)
    (hcanonical : (generate .canonical g).result = .ok canonical)
    (hlalr : (generate .lalr g).result = .ok lalr) :
    (∀ s core, canonical.HasCore s core → ∃! s', lalr.HasCore s' core) ∧
      (∀ s' core, lalr.HasCore s' core → ∃ s, canonical.HasCore s core) ∧
      (∀ s' st', lalr.state? s' = some st' →
        st'.kernel = unions ((canonical.statesWithCore st'.kernel.core).map State.kernel)) ∧
      ∀ pgm, (generate .pgm g).result = .ok pgm →
        ∀ core, (∃ s', pgm.HasCore s' core) ↔ ∃ s, canonical.HasCore s core := by
  have h := Grammar.augmented_of_define hg
  obtain ⟨_, hc⟩ := faithful_of_generate h hcanonical
  obtain ⟨_, hl⟩ := faithful_of_generate h hlalr
  refine ⟨fun s core hs => ?_, fun s' core hs' => ?_, fun s' st' hst' => ?_,
    fun pgm hpgm core => ?_⟩
  · obtain ⟨s', hs'⟩ := exists_hasCore h hcanonical hlalr hs
    exact ⟨s', hs', fun t ht => eq_of_hasCore_of_lalr h hlalr ht hs'⟩
  · exact exists_hasCore h hlalr hcanonical hs'
  · have hpart : ∀ {s st}, canonical.state? s = some st → st.kernel.core = st'.kernel.core →
        st.kernel ∈ (canonical.statesWithCore st'.kernel.core).map State.kernel :=
      fun hst hcore => List.mem_map_of_mem (mem_statesWithCore.mpr ⟨⟨_, hst⟩, hcore⟩)
    refine eq_unions ?_ (fun u hu => ?_) (fun i x hx => ?_)
    · obtain ⟨s, st, hst, hcore⟩ := exists_hasCore h hlalr hcanonical ⟨st', hst', rfl⟩
      exact List.ne_nil_of_mem (hpart hst hcore)
    · obtain ⟨st, hst, rfl⟩ := List.mem_map.mp hu
      obtain ⟨⟨s, hst⟩, hcore⟩ := mem_statesWithCore.mp hst
      exact kernel_extends_of_lalr h hcanonical hlalr hst hst' hcore
    · obtain ⟨s, st, hst, hcore, hx⟩ :=
        hl.exists_unmerged_lookahead h (FirstTable.within_ofGrammar g) hc hst' hx
      exact ⟨st.kernel, hpart hst hcore, hx⟩
  · constructor
    · rintro ⟨s', hs'⟩
      exact exists_hasCore h hpgm hcanonical hs'
    · rintro ⟨s, hs⟩
      exact exists_hasCore h hcanonical hpgm hs

set_option maxRecDepth 100000 in
/-- Pager's method keeps two states with one core apart here, and merging by core alone does not. -/
theorem lalr_is_quotient_weaklyIncompatible :
    ∃ g canonical lalr pgm, Grammar.define Samples.weaklyIncompatible.declarations = .ok g ∧
      (generate .canonical g).result = .ok canonical ∧ (generate .lalr g).result = .ok lalr ∧
      (generate .pgm g).result = .ok pgm ∧ lalr.size < pgm.size ∧
      (∀ s core, canonical.HasCore s core → ∃! s', lalr.HasCore s' core) ∧
      (∀ s' core, lalr.HasCore s' core → ∃ s, canonical.HasCore s core) ∧
      (∀ s' st', lalr.state? s' = some st' →
        st'.kernel = unions ((canonical.statesWithCore st'.kernel.core).map State.kernel)) ∧
      ∀ core, (∃ s', pgm.HasCore s' core) ↔ ∃ s, canonical.HasCore s core := by
  have hboth : bothPass .canonical .lalr Samples.weaklyIncompatible.declarations (fun g _ lalr =>
      (generate .pgm g).result.toOption.any fun pgm => decide (lalr.size < pgm.size)) = true := by
    decide +kernel
  obtain ⟨g, canonical, lalr, hg, hcanonical, hlalr, hp⟩ := exists_of_bothPass hboth
  obtain ⟨pgm, hpgm, hsmaller⟩ := (Option.any_eq_true _ _).mp hp
  have hpgm := eq_ok_of_toOption_eq_some hpgm
  obtain ⟨hunique, honly, hunions, hcores⟩ := lalr_is_quotient hg hcanonical hlalr
  exact ⟨g, canonical, lalr, pgm, hg, hcanonical, hlalr, hpgm, of_decide_eq_true hsmaller, hunique,
    honly, hunions, hcores pgm hpgm⟩

end Automaton
end ParserGen
