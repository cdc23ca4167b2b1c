import ParserGen.Proofs.Engine.StackMachine

/-!
# The dialogue with an engine

A client resumes an engine, and each time it is asked for input offers the next token, or the end of
input.  Its calls and their answers are a dialogue.  Tokens are asked for when there is none, and
shifted in order; and who replays the announcements on symbols alone has at each answer the symbols
that the engine has.

Main results:

- Theorem `Engine.Tracks.announcements_dialogue`: the announcements of a dialogue are those of a
  run.
- Theorem `Engine.Tracks.shifted_dialogue`, `Engine.Tracks.requests_dialogue`: what is shifted, and
  how often input is asked for.
- Theorem `Engine.Tracks.fits_dialogue`: what an answer says about the engine.
- Theorem `Engine.refines_stackMachine`: the engine refines the stack machine.
-/

namespace ParserGen

variable {σ τ ν ρ : Type}

/-- A call of an engine: the answer, and the engine after the call. -/
structure Call (σ τ ν ρ : Type) where
  answer : Except ParseError (ParseEvent σ τ ν ρ)
  engine : Engine σ τ ν

namespace Call

/-- Whether input is asked for. -/
def requests (c : Call σ τ ν ρ) : Bool :=
  match c.answer with
  | .ok .inputNeeded => true
  | _ => false

/-- The move, or the error in the lookahead, that is announced. -/
def announced? (c : Call σ τ ν ρ) : Option (ParseEvent σ τ ν ρ) :=
  match c.answer with
  | .ok .inputNeeded | .ok .accepted | .ok .rejected | .error _ => none
  | .ok event => some event

/-- Replay what is announced on the symbols. -/
def replay (table : ParseTable σ τ ν ρ) (symbols : List (StackSymbol τ ν)) (c : Call σ τ ν ρ) :
    List (StackSymbol τ ν) :=
  match c.answer with
  | .ok event => event.replay (c.engine.left? table) symbols
  | .error _ => symbols

end Call

/-- Resume an engine up to `limit` times, until it has accepted or rejected the input or fails.
Whenever it asks for input it is offered the next token, or the end of input. -/
def dialogue (table : ParseTable σ τ ν ρ) : Nat → Engine σ τ ν → List τ → List (Call σ τ ν ρ)
  | 0, _, _ => []
  | limit + 1, e, input =>
      match e.resume table with
      | (.ok .inputNeeded, e) =>
          let (e', rest) :=
            match input with
            | t :: rest => ((e.offerToken t).2, rest)
            | [] => (e.offerEnd.2, [])
          ⟨.ok .inputNeeded, e⟩ :: dialogue table limit e' rest
      | (.ok .accepted, e) => [⟨.ok .accepted, e⟩]
      | (.ok .rejected, e) => [⟨.ok .rejected, e⟩]
      | (.error cause, e) => [⟨.error cause, e⟩]
      | (.ok event, e) => ⟨.ok event, e⟩ :: dialogue table limit e input

namespace Engine

variable {table : ParseTable σ τ ν ρ} {e after : Engine σ τ ν} {input : List τ}
  {trail : List (StackSymbol τ ν)} {m : Except Outcome (StackMachine σ τ ν)} {limit : Nat}

/-! ## One call -/

theorem Requests.dialogue_eq (h : Requests table e input trail m after) (limit : Nat) :
    dialogue table (limit + 1) e input =
      ⟨.ok .inputNeeded, after⟩ :: dialogue table limit (after.fed input) input.tail := by
  rw [dialogue, h.resume]
  cases input with
  | nil => simp only [offerEnd, offer, h.waiting, fed, List.tail_nil]
  | cons t rest => simp only [offerToken, offer, h.waiting, fed, List.tail_cons]

theorem Announcement.dialogue_eq {m : StackMachine σ τ ν} {event : ParseEvent σ τ ν ρ}
    {next : Except Outcome (StackMachine σ τ ν)}
    (h : Announcement table e input trail m event next after) (limit : Nat) :
    dialogue table (limit + 1) e input =
      ⟨.ok event, after⟩ :: dialogue table limit after input := by
  rw [dialogue, h.resume]
  have hevent := h.announces
  cases event <;> first | rfl | exact hevent.elim

theorem Verdict.dialogue_eq {outcome : Outcome}
    {answer : Except ParseError (ParseEvent σ τ ν ρ)}
    (h : Verdict table e trail m outcome answer after) (limit : Nat) (input : List τ) :
    dialogue table (limit + 1) e input = [⟨answer, after⟩] := by
  rw [dialogue, h.resume]
  have hanswer := h.endsAs
  cases answer with
  | error cause => rfl
  | ok event => cases event <;> first | rfl | exact hanswer.elim

/-- The tokens that are shifted in a dialogue. -/
def shiftedIn (calls : List (Call σ τ ν ρ)) : List τ :=
  (calls.filterMap Call.announced?).filterMap ParseEvent.shifted?

theorem Announcement.announced?_eq {m : StackMachine σ τ ν} {event : ParseEvent σ τ ν ρ}
    {next : Except Outcome (StackMachine σ τ ν)}
    (h : Announcement table e input trail m event next after) :
    (Call.mk (.ok event) after).announced? = some event := by
  have hevent := h.announces
  cases event <;> first | rfl | exact hevent.elim

theorem Verdict.announced?_eq {outcome : Outcome}
    {answer : Except ParseError (ParseEvent σ τ ν ρ)}
    (h : Verdict table e trail m outcome answer after) :
    (Call.mk answer after).announced? = none := by
  have hanswer := h.endsAs
  cases answer with
  | error cause => rfl
  | ok event => cases event <;> first | rfl | exact hanswer.elim

theorem Announcement.not_requests {m : StackMachine σ τ ν} {event : ParseEvent σ τ ν ρ}
    {next : Except Outcome (StackMachine σ τ ν)}
    (h : Announcement table e input trail m event next after) :
    ¬ (Call.mk (.ok event) after).requests = true := by
  have hevent := h.announces
  cases event <;> first | exact Bool.false_ne_true | exact hevent.elim

theorem Verdict.not_requests {outcome : Outcome}
    {answer : Except ParseError (ParseEvent σ τ ν ρ)}
    (h : Verdict table e trail m outcome answer after) :
    ¬ (Call.mk answer after).requests = true := by
  have hanswer := h.endsAs
  cases answer with
  | error cause => exact Bool.false_ne_true
  | ok event => cases event <;> first | exact Bool.false_ne_true | exact hanswer.elim

theorem Announcement.shiftedIn_cons {m : StackMachine σ τ ν} {event : ParseEvent σ τ ν ρ}
    {next : Except Outcome (StackMachine σ τ ν)}
    (h : Announcement table e input trail m event next after) (calls : List (Call σ τ ν ρ)) :
    shiftedIn (⟨.ok event, after⟩ :: calls) = event.shifted?.toList ++ shiftedIn calls := by
  rw [shiftedIn, List.filterMap_cons_some h.announced?_eq]
  cases hshifted : event.shifted? with
  | none => exact List.filterMap_cons_none hshifted
  | some t => exact List.filterMap_cons_some hshifted

theorem Verdict.shiftedIn_eq {outcome : Outcome}
    {answer : Except ParseError (ParseEvent σ τ ν ρ)}
    (h : Verdict table e trail m outcome answer after) : shiftedIn [⟨answer, after⟩] = [] := by
  rw [shiftedIn, List.filterMap_cons_none h.announced?_eq]
  rfl

/-! ## The whole dialogue -/

/-- The announcements of a dialogue are those of a run. -/
theorem Tracks.announcements_dialogue (h : Tracks table e input trail m) :
    (dialogue table limit e input).filterMap Call.announced? =
      (Run.drive table limit e input).moves := by
  induction limit generalizing e input trail m with
  | zero => rfl
  | succ limit ih =>
    rcases h.reply with ⟨after, hrequests⟩ | hdecided
    · rw [hrequests.dialogue_eq, hrequests.drive_eq]
      exact ih hrequests.tracks
    · cases hdecided with
      | announcement hcall =>
        rw [hcall.dialogue_eq, hcall.drive_eq, List.filterMap_cons_some hcall.announced?_eq,
          ih hcall.tracks, Run.moves_announced]
      | verdict hcall =>
        rw [hcall.dialogue_eq, hcall.drive_eq, List.filterMap_cons_none hcall.announced?_eq,
          List.filterMap_nil]

/-- Tokens are shifted in order. -/
theorem Tracks.shifted_dialogue (h : Tracks table e input trail m) :
    shiftedIn (dialogue table limit e input) <+: StackMachine.unread m := by
  induction limit generalizing e input trail m with
  | zero => exact List.nil_prefix
  | succ limit ih =>
    rcases h.reply with ⟨after, hrequests⟩ | hdecided
    · rw [hrequests.dialogue_eq]
      exact ih hrequests.tracks
    · cases hdecided with
      | announcement hcall =>
        refine List.IsPrefix.trans ?_ (StackMachine.unread_of_announce hcall.turn)
        rw [hcall.dialogue_eq, hcall.shiftedIn_cons]
        exact (List.prefix_append_right_inj _).mpr (ih hcall.tracks)
      | verdict hcall =>
        rw [hcall.dialogue_eq, hcall.shiftedIn_eq]
        exact List.nil_prefix

/-- Input is asked for when everything before has been shifted. -/
theorem Tracks.requests_dialogue (h : Tracks table e input trail m) :
    let calls := dialogue table limit e input
    (shiftedIn calls).length ≤ calls.countP Call.requests + e.buffers.toNat ∧
      calls.countP Call.requests + e.buffers.toNat ≤ (shiftedIn calls).length + 1 := by
  intro calls
  subst calls
  induction limit generalizing e input trail m with
  | zero =>
    have hone := e.buffers.toNat_le
    simp only [dialogue, shiftedIn, List.filterMap_nil, List.length_nil, List.countP_nil]
    omega
  | succ limit ih =>
    rcases h.reply with ⟨after, hrequests⟩ | hdecided
    · have hrest := ih hrequests.tracks
      rw [buffers_fed] at hrest
      rw [hrequests.dialogue_eq, hrequests.empty, List.countP_cons_of_pos rfl]
      exact hrest
    · cases hdecided with
      | @announcement m event next after hcall =>
        have hrest := ih hcall.tracks
        rw [hcall.buffers] at hrest
        rw [hcall.dialogue_eq, hcall.shiftedIn_cons, hcall.full, List.length_append,
          List.countP_cons_of_neg hcall.not_requests]
        cases hshifted : event.shifted? <;> simp [hshifted] at hrest ⊢ <;> omega
      | verdict hcall =>
        rw [hcall.dialogue_eq, hcall.shiftedIn_eq, List.countP_cons_of_neg hcall.not_requests]
        have hone := e.buffers.toNat_le
        simp only [List.countP_nil, List.length_nil]
        omega

/-- What an answer says about the engine, when the calls before it leave the symbols `trail`. -/
structure Fits (trail : List (StackSymbol τ ν)) (event : ParseEvent σ τ ν ρ) (e : Engine σ τ ν) :
    Prop where
  requests : event = .inputNeeded ↔ e.lookahead = .absent
  symbols : e.symbols = trail
  replaced : ∀ rule replaced, event = .reducing rule replaced → replaced <:+ e.symbols

/-- What each answer of a dialogue says about the engine. -/
theorem Tracks.fits_dialogue (h : Tracks table e input trail m) {i : Nat} {call : Call σ τ ν ρ}
    (hcall : (dialogue table limit e input)[i]? = some call) {event : ParseEvent σ τ ν ρ}
    (hanswer : call.answer = .ok event) :
    call.engine.Fits (((dialogue table limit e input).take i).foldl (Call.replay table) trail)
      event := by
  induction limit generalizing e input trail m i with
  | zero => cases hcall
  | succ limit ih =>
    rcases h.reply with ⟨after, hrequests⟩ | hdecided
    · rw [hrequests.dialogue_eq] at hcall ⊢
      cases i with
      | zero =>
        cases hcall
        cases hanswer
        exact ⟨⟨fun _ => Lookahead.eq_absent hrequests.absent, fun _ => rfl⟩,
          hrequests.shown, nofun⟩
      | succ i => exact ih hrequests.tracks hcall
    · cases hdecided with
      | announcement hannounced =>
        rw [hannounced.dialogue_eq] at hcall ⊢
        cases i with
        | zero =>
          cases hcall
          cases hanswer
          refine ⟨⟨?_, ?_⟩, hannounced.shown, fun rule replaced heq => ?_⟩
          · rintro rfl
            exact hannounced.announces.elim
          · exact fun habsent => absurd habsent (Lookahead.present_iff.mp hannounced.present)
          · exact hannounced.shown ▸ hannounced.replaced rule replaced heq
        | succ i => exact ih hannounced.tracks hcall
      | verdict hverdict =>
        rw [hverdict.dialogue_eq] at hcall ⊢
        cases i with
        | zero =>
          cases hcall
          have hends := hverdict.endsAs
          dsimp only at hanswer
          subst hanswer
          refine ⟨⟨?_, ?_⟩, hverdict.shown _ rfl, ?_⟩
          · rintro rfl
            exact hends.elim
          · exact fun habsent => absurd habsent (Lookahead.present_iff.mp (hverdict.present _ rfl))
          · rintro rule replaced rfl
            exact hends.elim
        | succ i => cases hcall

/-! ## Refinement -/

/-- The engine refines the stack machine, whatever the table and the input.  A run of the engine
announces what the machine does, as far as it goes, and ends as the machine does; and the machine
does nothing that no run of the engine announces.  In the dialogue of a run, the tokens that are
shifted are the first of those that have been offered, in order, and all but the last have been
shifted when the next is asked for; input is asked for exactly if there is no lookahead; and until a
call fails, replaying the announcements gives the symbols of the engine at the next answer, on top
of which are those that it announces to be replaced. -/
theorem refines_stackMachine (table : ParseTable σ τ ν ρ) (input : List τ) :
    (∀ limit, ∃ n ≤ limit, (Run.ofInput table limit input).report =
      StackMachine.run table n (.ok (.start table input))) ∧
    (∀ n, ∃ limit, (Run.ofInput table limit input).report =
      StackMachine.run table n (.ok (.start table input))) ∧
    ∀ limit, let calls := dialogue table limit (Engine.initial table) input
      calls.filterMap Call.announced? = (Run.ofInput table limit input).moves ∧
      shiftedIn calls <+: input.take (calls.countP Call.requests) ∧
      calls.countP Call.requests ≤ (shiftedIn calls).length + 1 ∧
      ∀ i call event, calls[i]? = some call → call.answer = .ok event →
        (event = .inputNeeded ↔ call.engine.lookahead = .absent) ∧
        call.engine.symbols = (calls.take i).foldl (Call.replay table) [] ∧
        ∀ rule replaced, event = .reducing rule replaced → replaced <:+ call.engine.symbols := by
  have h := tracks_initial table input
  refine ⟨fun limit => h.exists_run_of_drive, fun n => h.exists_drive_of_run, fun limit => ?_⟩
  have hcounts : (shiftedIn (dialogue table limit (Engine.initial table) input)).length ≤ _ ∧ _ :=
    h.requests_dialogue
  obtain ⟨hshifted, hrequests⟩ := hcounts
  refine ⟨h.announcements_dialogue, ?_, hrequests, fun i call event hcall hanswer => ?_⟩
  · exact List.prefix_take_iff.mpr ⟨h.shifted_dialogue, hshifted⟩
  · have hfits := h.fits_dialogue hcall hanswer
    exact ⟨hfits.requests, hfits.symbols, hfits.replaced⟩

end Engine
end ParserGen
