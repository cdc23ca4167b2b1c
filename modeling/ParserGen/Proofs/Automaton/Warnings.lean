import ParserGen.Proofs.Automaton.Finished
import ParserGen.Proofs.Grammar.Productivity

/-!
# The warnings of a construction

The construction of an automaton reports much, but it warns of one thing only.  When a grammar has
passed the check, each of its nonterminals that derives no terminal string is reported, before the
first state is created; nothing that is reported after that is a warning.

Main results:

- Theorem `StateGraph.quiet_ofGrammar`: no warning is given while states are created and connected.
- Theorem `Automaton.exists_events_conclude`: nor while they are finished.
- Theorem `Automaton.warns_of_unproductive`: the warnings are exact.
-/

namespace ParserGen

/-- None of the events is a warning. -/
def Quiet (events : List Event) : Prop := ∀ e ∈ events, e.level ≠ .warn

namespace Quiet

variable {events more : List Event}

theorem append (h : Quiet events) (h' : Quiet more) : Quiet (events ++ more) :=
  fun e he => (List.mem_append.mp he).elim (h e) (h' e)

theorem push {events : Array Event} (h : Quiet events.toList) {e : Event} (he : e.level ≠ .warn) :
    Quiet (events.push e).toList := by
  rw [Array.toList_push]
  exact h.append fun e' he' => List.mem_singleton.mp he' ▸ he

/-- A log of warnings shows nothing of quiet events. -/
theorem upTo_warn (h : Quiet events) : Event.upTo .warn events = [] := by
  refine List.filter_eq_nil_iff.mpr fun e he => ?_
  have hlevel := h e he
  cases hl : e.level with
  | warn => exact absurd hl hlevel
  | debug => decide
  | trace => decide

end Quiet

/-- A log of warnings shows the warnings of a grammar. -/
theorem Grammar.upTo_warnings (g : Grammar) : Event.upTo .warn g.warnings = g.warnings := by
  refine List.filter_eq_self.mpr fun e he => ?_
  obtain ⟨n, _, rfl⟩ := List.mem_map.mp he
  rfl

/-! ## Creating and connecting states -/

namespace StateGraph

variable {g : Grammar} {first : FirstTable} {mode : MergeMode} {graph next : StateGraph}
  {kernel : ItemSet} {s : Nat}

theorem quiet_mergeInto (h : Quiet graph.events.toList) (s : Nat) (kernel : ItemSet) :
    Quiet (graph.mergeInto s kernel).events.toList := by
  rw [mergeInto_eq]
  split
  · exact h
  · exact h.push nofun

theorem quiet_place (h : Quiet graph.events.toList)
    (hrun : graph.place mode kernel = .ok (s, next)) : Quiet next.events.toList := by
  cases places_of_place hrun with
  | registered _ => exact h
  | reused _ _ _ => exact h
  | merged _ _ _ => exact quiet_mergeInto h _ _
  | created _ _ => exact h.push nofun

theorem quiet_connect (h : Quiet graph.events.toList)
    (hrun : graph.connect g first mode s = .ok next) : Quiet next.events.toList := by
  obtain ⟨edges, placed, hplace, rfl⟩ := exists_of_connect hrun
  have hplaced : Quiet placed.events.toList :=
    placeAll_invariant (P := fun x => Quiet x.events.toList)
      (fun _ _ _ _ _ => quiet_place) h hplace
  exact hplaced.push nofun

/-- No warning is given while the states of a grammar are created and connected. -/
theorem quiet_ofGrammar (hrun : ofGrammar g first mode = .ok graph) :
    Quiet graph.events.toList := by
  obtain ⟨last, hsaturate, rfl⟩ := exists_of_ofGrammar hrun
  have hempty : Quiet empty.events.toList := nofun
  have hstart : Quiet (empty.created initialKernel).events.toList := hempty.push nofun
  have hlast : Quiet last.events.toList :=
    saturate_invariant (P := fun x => Quiet x.events.toList)
      (fun {graph _ _ rest} h _ hconnect => by
        have hpopped : Quiet { graph with pending := rest }.events.toList := h
        exact quiet_connect hpopped hconnect)
      hstart hsaturate
  exact hlast.push nofun

end StateGraph

/-! ## Finishing states -/

namespace Automaton

variable {g : Grammar}

theorem quiet_finishingEvents (g : Grammar) (graph : StateGraph) (a : Automaton) :
    Quiet (finishingEvents g graph a) := by
  refine .append (.append ?_ ?_) ?_
  · intro e he
    split at he
    · rw [List.mem_singleton.mp he]
      exact nofun
    · cases he
  · intro e he
    obtain ⟨c, _, rfl⟩ := List.mem_map.mp he
    exact nofun
  · intro e he
    rw [List.mem_singleton.mp he]
    exact nofun

/-- No warning is given after the opening events. -/
theorem exists_events_conclude (g : Grammar) (first : FirstTable) (opening : List Event)
    {x : Except BuildError StateGraph} (hx : ∀ graph, x = .ok graph → Quiet graph.events.toList) :
    ∃ rest, Quiet rest ∧ (conclude g first opening x).events = opening ++ rest := by
  cases x with
  | error e => exact ⟨[], nofun, (List.append_nil _).symm⟩
  | ok graph =>
    have hgraph := hx graph rfl
    rw [conclude]
    cases ofStateGraph g first graph with
    | error e => exact ⟨_, hgraph, rfl⟩
    | ok a =>
      exact ⟨_, hgraph.append (quiet_finishingEvents g graph a), List.append_assoc _ _ _⟩

/-- What a log of warnings shows of a construction are the warnings of the grammar. -/
theorem upTo_warn_generate (hcheck : g.checkBuildable = .ok ()) (mode : MergeMode) :
    Event.upTo .warn (generate mode g).events = g.warnings := by
  have hgraph : ∀ graph, StateGraph.ofGrammar g (FirstTable.ofGrammar g) mode = .ok graph →
      Quiet graph.events.toList := fun _ => StateGraph.quiet_ofGrammar
  obtain ⟨rest, hrest, hevents⟩ := exists_events_conclude g (FirstTable.ofGrammar g)
    (g.warnings ++ FirstTable.events g) hgraph
  have hfirst : Quiet (FirstTable.events g ++ rest) := by
    refine Quiet.append (fun e he => ?_) hrest
    rw [List.mem_singleton.mp he]
    exact nofun
  rw [generate, hcheck]
  dsimp only
  rw [hevents, List.append_assoc, Event.upTo, List.filter_append]
  have hwarnings := g.upTo_warnings
  have hquiet := hfirst.upTo_warn
  rw [Event.upTo] at hwarnings hquiet
  rw [hwarnings, hquiet, List.append_nil]

/-- Let a grammar pass the check.  The search for productive nonterminals ends.  Whatever the mode,
and whatever comes of the construction, the warnings it gives are one for each nonterminal from
which no terminal string can be derived, in the order of the nonterminals. -/
theorem warns_of_unproductive (hcheck : g.checkBuildable = .ok ()) (mode : MergeMode) :
    Converges g.productiveSweep ∅ g.productive ∧
      g.unproductive.Sublist g.nonterminals.keys ∧ g.unproductive.Nodup ∧
      (∀ n, n ∈ g.unproductive ↔
        n ∈ g.nonterminals ∧ ¬ ∃ w, g.Derives [.nonterminal n] (Grammar.sentence w)) ∧
      (Event.upTo .warn (generate mode g).events).map Event.message =
        g.unproductive.map fun n =>
          "the nonterminal `" ++ g.symbolName (.nonterminal n) ++
            "' derives no terminal string" := by
  have hsublist : g.unproductive.Sublist g.nonterminals.keys := List.filter_sublist
  refine ⟨g.converges_productive, hsublist, g.nonterminals.nodup_keys.sublist hsublist,
    fun _ => Grammar.mem_unproductive_iff, ?_⟩
  rw [upTo_warn_generate hcheck, Grammar.warnings, List.map_map]
  rfl

/-- A road of stones without an end, and a chain of names for a stone, the last one declared
first. -/
def endlessRoad : List Declaration :=
  [.terminal "stone" none, .nonterminal "road", .nonterminal "first", .nonterminal "second",
    .nonterminal "third", .rule 1 [.terminal 1, .nonterminal 1] none,
    .rule 2 [.nonterminal 3] none, .rule 3 [.nonterminal 4] none, .rule 4 [.terminal 1] none]

/-- The chain takes three sweeps; the road derives nothing, and neither does the augmented start
symbol. -/
theorem warns_of_unproductive_endlessRoad :
    ∃ g, Grammar.define endlessRoad = .ok g ∧ g.checkBuildable = .ok () ∧
      g.unproductive = [augmentedStart, 1] ∧ ∀ mode,
        Converges g.productiveSweep ∅ g.productive ∧
        g.unproductive.Sublist g.nonterminals.keys ∧ g.unproductive.Nodup ∧
        (∀ n, n ∈ g.unproductive ↔
          n ∈ g.nonterminals ∧ ¬ ∃ w, g.Derives [.nonterminal n] (Grammar.sentence w)) ∧
        (Event.upTo .warn (generate mode g).events).map Event.message =
          g.unproductive.map fun n =>
            "the nonterminal `" ++ g.symbolName (.nonterminal n) ++
              "' derives no terminal string" := by
  have hsome : (Grammar.define endlessRoad).toOption.any (fun g =>
      g.checkBuildable.toOption.isSome && decide (g.unproductive = [augmentedStart, 1])) =
        true := by
    decide +kernel
  obtain ⟨g, hg, hp⟩ := (Option.any_eq_true _ _).mp hsome
  rw [Bool.and_eq_true, decide_eq_true_eq] at hp
  obtain ⟨_, hunit⟩ := Option.isSome_iff_exists.mp hp.1
  have hcheck := eq_ok_of_toOption_eq_some hunit
  exact ⟨g, eq_ok_of_toOption_eq_some hg, hcheck, hp.2, warns_of_unproductive hcheck⟩

end Automaton
end ParserGen
