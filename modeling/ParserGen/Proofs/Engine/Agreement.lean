import ParserGen.Proofs.Automaton.Edits
import ParserGen.Proofs.Automaton.Paths

/-!
# The engine stays on the automaton

Whoever uses an engine may resume it and offer it input in any order, also in vain.  Whatever is
done, the states on its stack follow the edges of the automaton on the symbols of the other stack,
and a reduction that is announced replaces the right-hand side of its rule and can be made.

Main results:

- Theorem `Automaton.Faithful.consistent_resume`: what one call of the engine keeps and answers.
- Theorem `Automaton.Faithful.consistent_of_reachable`: what holds of every engine there can be.
- Theorem `Automaton.engine_follows_automaton`: the stacks of an engine agree with the automaton.
-/

namespace ParserGen

open ItemSet

/-! ## Engines in use -/

/-- The engines that can come about: a new one, and what becomes of one that is resumed or offered
input, whether the call succeeds or not. -/
inductive Engine.Reachable {σ τ ν ρ : Type} (table : ParseTable σ τ ν ρ) : Engine σ τ ν → Prop
  | initial : Reachable table (Engine.initial table)
  | resumed {e : Engine σ τ ν} : Reachable table e → Reachable table (e.resume table).2
  | offeredToken {e : Engine σ τ ν} (t : τ) : Reachable table e → Reachable table (e.offerToken t).2
  | offeredEnd {e : Engine σ τ ν} : Reachable table e → Reachable table e.offerEnd.2

/-- The engine that asks for input and shifts the token it is offered, then asks again and is told
that there is no more. -/
def Engine.afterToken {σ τ ν ρ : Type} (table : ParseTable σ τ ν ρ) (t : τ) : Engine σ τ ν :=
  let shifting := (((Engine.initial table).resume table).2.offerToken t).2
  (((shifting.resume table).2.resume table).2.offerEnd).2

theorem Engine.reachable_afterToken {σ τ ν ρ : Type} (table : ParseTable σ τ ν ρ) (t : τ) :
    Engine.Reachable table (Engine.afterToken table t) :=
  .offeredEnd (.resumed (.resumed (.offeredToken t (.resumed .initial))))

namespace Automaton

variable {g : Grammar} {first : FirstTable} {mode : MergeMode} {a : Automaton}
  {kernel : Nat → ItemSet} {e : Engine Nat Nat Nat}

/-- The announced move can be made: there is a token to be shifted along an edge, or there are
symbols to be replaced and an edge on the left-hand side below them. -/
def Announced (a : Automaton) (e : Engine Nat Nat Nat) : Prop :=
  match e.phase with
  | .shift next => ∃ t s below st, e.lookahead = .token t ∧ e.states = s :: below ∧
      a.states[s]? = some st ∧ st.target? (.terminal t) = some next
  | .reduce left length => length ≤ e.stack.length ∧ ∃ s below st next,
      e.states.drop length = s :: below ∧ a.states[s]? = some st ∧
      st.target? (.nonterminal left) = some next
  | _ => True

/-- The stacks agree with the automaton, and so does the announced move. -/
structure Consistent (a : Automaton) (e : Engine Nat Nat Nat) : Prop where
  path : a.Path e.states e.stack
  announced : a.Announced e

/-- The engine that a call leaves is consistent, the call does not fail for the stacks, and the
symbols it announces to be replaced are the right-hand side of their rule. -/
structure SafeAnswer (g : Grammar) (a : Automaton)
    (answer : Except ParseError (ParseEvent Nat Nat Nat Nat) × Engine Nat Nat Nat) : Prop where
  consistent : a.Consistent answer.2
  not_stackUnderflow : answer.1 ≠ .error .stackUnderflow
  not_missingGoto : answer.1 ≠ .error .missingGoto
  replaced : ∀ {rule : Nat} {symbols : List (StackSymbol Nat Nat)},
    answer.1 = .ok (.reducing rule symbols) →
      ∃ r, g.rules[rule]? = some r ∧ symbols.map StackSymbol.toSymbol = r.right

/-- An answer that announces no reduction is safe if the engine is consistent. -/
theorem SafeAnswer.of_event {event : ParseEvent Nat Nat Nat Nat} (he : a.Consistent e)
    (hevent : ∀ rule symbols, event ≠ .reducing rule symbols) : SafeAnswer g a (.ok event, e) where
  consistent := he
  not_stackUnderflow := by simp
  not_missingGoto := by simp
  replaced heq := absurd (Except.ok.inj heq) (hevent _ _)

/-- A refusal for another reason than the stacks is safe if the engine is consistent. -/
theorem SafeAnswer.of_error {error : ParseError} (he : a.Consistent e)
    (hstack : error ≠ .stackUnderflow) (hgoto : error ≠ .missingGoto) :
    SafeAnswer g a (.error error, e) where
  consistent := he
  not_stackUnderflow := by simpa using hstack
  not_missingGoto := by simpa using hgoto
  replaced heq := by cases heq

namespace Faithful

/-- A rule that can be reduced by has its right-hand side on top of the stack, and there is an edge
on its left-hand side below. -/
theorem reducible (h : g.Augmented) (hfirst : first.Within g) (hf : a.Faithful g first mode kernel)
    {s : Nat} {states : List Nat} {stack : List (StackSymbol Nat Nat)} {st : State}
    (hpath : a.Path (s :: states) stack) (hst : a.states[s]? = some st) {r : Rule}
    (hr : r ∈ g.ruleList) (hne : r.id ≠ augmentedRule)
    (hitem : ⟨r.id, r.right.length⟩ ∈ st.items) :
    r.right.length ≤ stack.length ∧
      (stack.take r.right.length).map StackSymbol.toSymbol = r.right.reverse ∧
      ∃ s' below st' next, (s :: states).drop r.right.length = s' :: below ∧
        a.states[s']? = some st' ∧ st'.target? (.nonterminal r.left) = some next := by
  obtain ⟨hle, hsymbols, s', below, st', hdrop, hst', hstart, _⟩ :=
    hf.item_on_path h hfirst hr _ hpath hst hitem
  rw [List.take_length] at hsymbols
  obtain ⟨next, hnext⟩ := hf.exists_target_of_start h hfirst hst' hr hne hstart
  exact ⟨hle, hsymbols, s', below, st', next, hdrop, hst', hnext⟩

/-- An announcement is safe. -/
theorem safe_announce (h : g.Augmented) (hfirst : first.Within g)
    (hf : a.Faithful g first mode kernel) {s : Nat} {states : List Nat}
    (hpath : a.Path e.states e.stack) (hstates : e.states = s :: states)
    (hphase : e.phase = .ready) {lookahead : Option Nat}
    (htoken : ∀ t, lookahead = some t → e.lookahead = .token t) :
    SafeAnswer g a (e.announce a.table s lookahead) := by
  have hidle : a.Consistent e := ⟨hpath, by rw [Announced, hphase]; trivial⟩
  obtain ⟨st, hst⟩ := hf.state_of_path (hstates ▸ hpath)
  rcases hf.action_cases h hfirst hst lookahead with
    ⟨next, haction, htarget⟩ | ⟨r, hr, haction, hne, hmem⟩ | ⟨haction, _⟩ | haction
  · simp only [Engine.announce, haction]
    cases lookahead with
    | none => exact .of_error hidle (by decide) (by decide)
    | some t =>
      have hshift : a.Announced { e with phase := .shift next } :=
        ⟨t, s, states, st, htoken t rfl, hstates, hst, htarget⟩
      exact .of_event ⟨hpath, hshift⟩ (by simp)
  · obtain ⟨r', hr', hid, hitem, _⟩ := complete_item h (hf.fits h hfirst hst) hmem
    obtain rfl := h.eq_of_id_eq hr' hr hid
    obtain ⟨hle, hsymbols, hgoto⟩ := hf.reducible h hfirst (hstates ▸ hpath) hst hr hne hitem
    have htop : e.top? r'.right.length = some (e.stack.take r'.right.length) := by
      rw [Engine.top?, if_neg]
      simpa using hle
    simp only [Engine.announce, haction, htop]
    refine ⟨⟨hpath, hle, hstates ▸ hgoto⟩, by simp, by simp, ?_⟩
    rintro rule symbols ⟨⟩
    refine ⟨r', h.mem_ruleList.mp hr, ?_⟩
    rw [List.map_reverse, hsymbols, List.reverse_reverse]
  · simp only [Engine.announce, haction]
    exact .of_event ⟨hpath, trivial⟩ (by simp)
  · simp only [Engine.announce, haction]
    exact .of_event ⟨hpath, trivial⟩ (by simp)

/-- On a path, finding out what comes next is safe. -/
theorem safe_step (h : g.Augmented) (hfirst : first.Within g)
    (hf : a.Faithful g first mode kernel) (hpath : a.Path e.states e.stack)
    (hphase : e.phase = .ready) : SafeAnswer g a (e.step a.table) := by
  obtain ⟨s, states, hstates⟩ := hpath.exists_cons
  simp only [Engine.step, hstates]
  cases hlookahead : e.lookahead with
  | absent =>
    rw [hstates] at hpath
    exact .of_event ⟨hpath, trivial⟩ (by simp)
  | token t =>
    refine hf.safe_announce h hfirst hpath hstates hphase ?_
    rintro _ ⟨⟩
    exact hlookahead
  | finish => exact hf.safe_announce h hfirst hpath hstates hphase (by simp)

/-- A consistent engine can be resumed. -/
theorem consistent_resume (h : g.Augmented) (hfirst : first.Within g)
    (hf : a.Faithful g first mode kernel) (he : a.Consistent e) :
    SafeAnswer g a (e.resume a.table) := by
  have hpath := he.path
  have hannounced := he.announced
  unfold Announced at hannounced
  cases hphase : e.phase with
  | ready =>
    simp only [Engine.resume, hphase, Engine.proceed]
    exact hf.safe_step h hfirst hpath rfl
  | awaitingInput =>
    simp only [Engine.resume, hphase]
    exact .of_error he (by decide) (by decide)
  | shift next =>
    rw [hphase] at hannounced
    obtain ⟨t, s, below, st, hlookahead, hstates, hst, htarget⟩ := hannounced
    simp only [Engine.resume, hphase, Engine.shift, hlookahead, Engine.proceed]
    refine hf.safe_step h hfirst ?_ rfl
    rw [hstates] at hpath ⊢
    exact .edge hpath hst htarget
  | reduce left length =>
    rw [hphase] at hannounced
    obtain ⟨hle, s, below, st, next, hdrop, hst, htarget⟩ := hannounced
    have htop : e.top? length = some (e.stack.take length) := by
      rw [Engine.top?, if_neg]
      simpa using hle
    have hbelow := hpath.drop hle
    rw [hdrop] at hbelow
    simp only [Engine.resume, hphase, Engine.reduce, hdrop, htop, hf.goto_eq hst, htarget,
      Engine.proceed]
    exact hf.safe_step h hfirst (Path.edge (x := .nonterminal left) hbelow hst htarget) rfl
  | rejecting =>
    simp only [Engine.resume, hphase]
    exact .of_event he (by simp)
  | accepted =>
    simp only [Engine.resume, hphase]
    exact .of_error he (by decide) (by decide)

end Faithful

/-- Offering input leaves an engine consistent, whether it is wanted or not. -/
theorem Consistent.offer (he : a.Consistent e) (input : Lookahead Nat) :
    a.Consistent (e.offer input).2 := by
  unfold Engine.offer
  split
  · exact ⟨he.path, trivial⟩
  · exact he

theorem Faithful.consistent_of_reachable (h : g.Augmented) (hfirst : first.Within g)
    (hf : a.Faithful g first mode kernel) (he : Engine.Reachable a.table e) : a.Consistent e := by
  induction he with
  | initial => exact ⟨.start, trivial⟩
  | resumed _ ih => exact (hf.consistent_resume h hfirst ih).consistent
  | offeredToken t _ ih => exact ih.offer (.token t)
  | offeredEnd _ ih => exact ih.offer .finish

/-- Whatever is left out of a defined grammar and whatever start symbol is set, if an automaton can
be built, every engine that runs it follows it: its states are on a path from the initial state on
its symbols, the symbols it announces to be replaced are the right-hand side of their rule, and it
never finds the stacks too short or nowhere to go. -/
theorem engine_follows_automaton {declarations : List Declaration} {whole : Grammar}
    (hwhole : Grammar.define declarations = .ok whole) (hpart : g.PartOf whole)
    (hrun : (generate mode g).result = .ok a) (he : Engine.Reachable a.table e) :
    a.Path e.states e.stack ∧
      (∀ rule symbols, (e.resume a.table).1 = .ok (.reducing rule symbols) →
        ∃ r, g.rules[rule]? = some r ∧ symbols.map StackSymbol.toSymbol = r.right) ∧
      (e.resume a.table).1 ≠ .error .stackUnderflow ∧
      (e.resume a.table).1 ≠ .error .missingGoto := by
  obtain ⟨h, _, hf⟩ := faithful_of_edited (Grammar.augmented_of_define hwhole) hpart hrun
  have hfirst : (FirstTable.ofGrammar g).Within { g with start := whole.start } :=
    FirstTable.within_ofGrammar { g with start := whole.start }
  have hconsistent := hf.consistent_of_reachable h hfirst he
  have hanswer := hf.consistent_resume h hfirst hconsistent
  exact ⟨hconsistent.path, fun _ _ hreducing => hanswer.replaced hreducing,
    hanswer.not_stackUnderflow, hanswer.not_missingGoto⟩

set_option maxRecDepth 100000 in
theorem engine_follows_automaton_number :
    ∃ whole g a e, Grammar.define ambiguousSum = .ok whole ∧
      g = { whole.dropRule 1 with start := augmentedStart } ∧ g.PartOf whole ∧
      (generate .pgm g).result = .ok a ∧ Engine.Reachable a.table e ∧
      (e.resume a.table).1 = .ok (.reducing 2 [.token 2]) ∧
      a.Path e.states e.stack ∧
      (∀ rule symbols, (e.resume a.table).1 = .ok (.reducing rule symbols) →
        ∃ r, g.rules[rule]? = some r ∧ symbols.map StackSymbol.toSymbol = r.right) ∧
      (e.resume a.table).1 ≠ .error .stackUnderflow ∧
      (e.resume a.table).1 ≠ .error .missingGoto := by
  have hsome : (Grammar.define ambiguousSum).toOption.any (fun whole =>
      (generate .pgm { whole.dropRule 1 with start := augmentedStart }).result.toOption.any fun a =>
        decide (((Engine.afterToken a.table 2).resume a.table).1.toOption =
          some (.reducing 2 [.token 2]))) = true := by
    decide +kernel
  obtain ⟨whole, hwhole, hsome⟩ := (Option.any_eq_true _ _).mp hsome
  obtain ⟨a, hrun, hp⟩ := (Option.any_eq_true _ _).mp hsome
  have hwhole := eq_ok_of_toOption_eq_some hwhole
  have hrun := eq_ok_of_toOption_eq_some hrun
  have hpart : { whole.dropRule 1 with start := augmentedStart }.PartOf whole :=
    ((Grammar.PartOf.refl whole).dropRule 1).withStart _
  have he := Engine.reachable_afterToken a.table 2
  exact ⟨whole, _, a, _, hwhole, rfl, hpart, hrun, he,
    eq_ok_of_toOption_eq_some (of_decide_eq_true hp),
    engine_follows_automaton hwhole hpart hrun he⟩

end Automaton
end ParserGen
