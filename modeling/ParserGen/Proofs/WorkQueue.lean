import Mathlib.Data.List.Infix
import ParserGen.Proofs.Repetitions
import ParserGen.WorkQueue

/-!
# Calls of work queues

The set and the list of the waiting values stay in step, so a queue accepts a value just when it
does not wait.  What waits or is accepted at a call is what is delivered or waits afterwards, in the
same order.  This holds of every call, and so of every sequence of calls: values are delivered in
the order in which they were accepted, each as often as it was.

Main results:

- Theorem `WorkQueue.account`: what a call does with values.
- Theorem `WorkQueue.take_prefix_delivered`: what waits is delivered if it is asked for.
- Theorem `WorkQueue.first_in_first_out`: what holds after any calls.
-/

namespace ParserGen
namespace WorkQueue

variable {α : Type} [Ord α]

theorem map_pop?_eq_head? (q : WorkQueue α) : q.pop?.map Prod.fst = q.toList.head? := by
  cases hpop : q.pop? with
  | none => simp [toList_eq_nil_of_pop? hpop]
  | some r => simp [toList_of_pop? hpop]

/-! ## Sequences of calls -/

/-- What is asked of a queue: to take a value in, or to give out the oldest one. -/
inductive Call (α : Type) where
  | push (a : α)
  | pop
deriving DecidableEq, Repr

/-- The queue after a call, whatever the answer was. -/
def serve (q : WorkQueue α) : Call α → WorkQueue α
  | .push a => (q.push a).2
  | .pop => (q.pop?.map Prod.snd).getD q

/-- The queue after some calls. -/
def serveAll (q : WorkQueue α) : List (Call α) → WorkQueue α
  | [] => q
  | call :: calls => (q.serve call).serveAll calls

/-- The value that is accepted at a call: it is pushed, and the answer is that it was appended. -/
def accepted? (q : WorkQueue α) : Call α → Option α
  | .push a => if (q.push a).1 then some a else none
  | .pop => none

/-- The value that is delivered at a call: it is the answer to a request for one. -/
def delivered? (q : WorkQueue α) : Call α → Option α
  | .push _ => none
  | .pop => q.pop?.map Prod.fst

/-- The values that are accepted at some calls, in order. -/
def accepted (q : WorkQueue α) : List (Call α) → List α
  | [] => []
  | call :: calls => (q.accepted? call).toList ++ (q.serve call).accepted calls

/-- The values that are delivered at some calls, in order. -/
def delivered (q : WorkQueue α) : List (Call α) → List α
  | [] => []
  | call :: calls => (q.delivered? call).toList ++ (q.serve call).delivered calls

/-- How often a value is asked for. -/
def pops : List (Call α) → Nat
  | [] => 0
  | .push _ :: calls => pops calls
  | .pop :: calls => pops calls + 1

/-- What waits or is accepted at a call is what is delivered or waits afterwards. -/
theorem account (q : WorkQueue α) (call : Call α) :
    q.toList ++ (q.accepted? call).toList =
      (q.delivered? call).toList ++ (q.serve call).toList := by
  cases call with
  | push a =>
    simp only [accepted?, delivered?, serve, toList_push]
    by_cases hwaiting : q.waiting.contains a = true <;> simp [push, hwaiting]
  | pop =>
    cases hpop : q.pop? with
    | none => simp [accepted?, delivered?, serve, hpop]
    | some r => simp [accepted?, delivered?, serve, hpop, toList_of_pop? hpop]

/-- No value is lost, doubled or moved past another one. -/
theorem accepted_eq (q : WorkQueue α) (calls : List (Call α)) :
    q.toList ++ q.accepted calls = q.delivered calls ++ (q.serveAll calls).toList := by
  induction calls generalizing q with
  | nil => exact List.append_nil _
  | cons call calls ih =>
    calc q.toList ++ q.accepted (call :: calls)
        = (q.toList ++ (q.accepted? call).toList) ++ (q.serve call).accepted calls :=
          (List.append_assoc ..).symm
      _ = (q.delivered? call).toList ++
            ((q.serve call).toList ++ (q.serve call).accepted calls) := by
          rw [q.account call, List.append_assoc]
      _ = q.delivered (call :: calls) ++ (q.serveAll (call :: calls)).toList := by
          rw [ih (q.serve call), ← List.append_assoc]
          rfl

/-- As many values are delivered of those that wait as are asked for, whatever is pushed in
between. -/
theorem take_prefix_delivered (q : WorkQueue α) (calls : List (Call α)) :
    q.toList.take (pops calls) <+: q.delivered calls := by
  induction calls generalizing q with
  | nil => exact List.nil_prefix
  | cons call calls ih =>
    cases call with
    | push a =>
      -- A value that is pushed does not come before those that wait.
      have hbehind : q.toList <+: (q.serve (.push a)).toList := ⟨_, q.account (.push a)⟩
      exact (hbehind.take (pops calls)).trans (ih (q.serve (.push a)))
    | pop =>
      cases hpop : q.pop? with
      | none =>
        rw [toList_eq_nil_of_pop? hpop, List.take_nil]
        exact List.nil_prefix
      | some r =>
        have hdelivered : q.delivered (.pop :: calls) = r.1 :: r.2.delivered calls := by
          simp [delivered, delivered?, serve, hpop]
        rw [toList_of_pop? hpop, hdelivered]
        exact List.cons_prefix_cons.mpr ⟨rfl, ih r.2⟩

/-! ## Valid queues -/

/-- A value is accepted if it does not wait. -/
theorem Valid.push_eq_true_iff {q : WorkQueue α} (h : q.Valid) (a : α) :
    (q.push a).1 = true ↔ a ∉ q.toList := by
  rw [← h.contains_iff, push]
  by_cases hwaiting : q.waiting.contains a = true <;> simp [hwaiting]

theorem Valid.size_add_le {q : WorkQueue α} (h : q.Valid) (a : α) :
    (q.add a).size ≤ q.size + 1 := by
  rw [← length_toList, ← length_toList]
  by_cases ha : a ∈ q.toList
  · rw [h.add_of_mem ha]
    omega
  · rw [h.toList_add_of_not_mem ha]
    simp

variable [Std.TransOrd α] [Std.LawfulEqOrd α]

/-- A value that has been popped is accepted again. -/
theorem Valid.push_of_pop? {q rest : WorkQueue α} (h : q.Valid) {a : α}
    (hpop : q.pop? = some (a, rest)) : (rest.push a).1 = true := by
  rw [(h.pop hpop).push_eq_true_iff]
  exact (List.nodup_cons.mp (h.nodup_of_pop? hpop)).1

theorem valid_ofList (values : List α) : (ofList values).Valid := by
  induction values using List.reverseRecOn with
  | nil => exact valid_empty
  | append_singleton values a ih =>
    rw [ofList_concat]
    exact ih.add a

/-- Of a list each value waits once, in the place where it stands first. -/
theorem toList_ofList [DecidableEq α] (values : List α) :
    (ofList values).toList = values.eraseDups := by
  induction values using List.reverseRecOn with
  | nil => simp
  | append_singleton values a ih =>
    have hvalid := valid_ofList values
    have hmem : a ∈ (ofList values).toList ↔ a ∈ values := by
      rw [ih, List.mem_eraseDups]
    rw [ofList_concat]
    by_cases ha : a ∈ values
    · rw [hvalid.add_of_mem (hmem.mpr ha), ih, eraseDups_concat_of_mem ha]
    · rw [hvalid.toList_add_of_not_mem (mt hmem.mp ha), ih, eraseDups_concat_of_not_mem ha]

/-- Every call keeps a queue valid. -/
theorem Valid.serve {q : WorkQueue α} (h : q.Valid) (call : Call α) : (q.serve call).Valid := by
  cases call with
  | push a => exact h.add a
  | pop =>
    cases hpop : q.pop? with
    | none => simpa [WorkQueue.serve, hpop] using h
    | some r => simpa [WorkQueue.serve, hpop] using h.pop hpop

theorem Valid.serveAll {q : WorkQueue α} (h : q.Valid) (calls : List (Call α)) :
    (q.serveAll calls).Valid := by
  induction calls generalizing q with
  | nil => exact h
  | cons call calls ih => exact ih (h.serve call)

/-- Whatever is asked of a queue that starts with the values of a list, or with none, the set holds
what waits, no value waits twice, a value is accepted just when it does not wait, the oldest one is
given out and can come back, and the values that were accepted are those that were delivered and
those that wait, in this order.  What waits is delivered if it is asked for. -/
theorem first_in_first_out [DecidableEq α] (values : List α) (calls : List (Call α)) :
    let start := ofList values
    let q := start.serveAll calls
    q.Valid ∧ (∀ a, (q.push a).1 = true ↔ a ∉ q.toList) ∧
      q.pop?.map Prod.fst = q.toList.head? ∧
      (∀ a rest, q.pop? = some (a, rest) → (rest.push a).1 = true) ∧
      values.eraseDups ++ start.accepted calls = start.delivered calls ++ q.toList ∧
      ∀ more, q.toList.take (pops more) <+: q.delivered more := by
  intro start q
  have hvalid : q.Valid := (valid_ofList values).serveAll calls
  have haccount := start.accepted_eq calls
  rw [toList_ofList] at haccount
  exact ⟨hvalid, hvalid.push_eq_true_iff, q.map_pop?_eq_head?, fun _ _ => hvalid.push_of_pop?,
    haccount, q.take_prefix_delivered⟩

/-- A value that was pushed in vain while it waited is accepted when it has been delivered. -/
theorem first_in_first_out_queuedAgain :
    let calls : List (Call Nat) := [.push 3, .pop, .push 3, .push 2, .pop]
    let start := ofList [3, 1, 3]
    let q := start.serveAll calls
    start.accepted calls = [3, 2] ∧ start.delivered calls = [3, 1] ∧ q.toList = [3, 2] ∧
      q.Valid ∧ (∀ a, (q.push a).1 = true ↔ a ∉ q.toList) ∧
      q.pop?.map Prod.fst = q.toList.head? ∧
      (∀ a rest, q.pop? = some (a, rest) → (rest.push a).1 = true) ∧
      [3, 1, 3].eraseDups ++ start.accepted calls = start.delivered calls ++ q.toList ∧
      ∀ more, q.toList.take (pops more) <+: q.delivered more := by
  intro calls start q
  have haccepted : start.accepted calls = [3, 2] := by
    decide +kernel
  have hdelivered : start.delivered calls = [3, 1] := by
    decide +kernel
  have hlist : q.toList = [3, 2] := by
    decide +kernel
  exact ⟨haccepted, hdelivered, hlist, first_in_first_out [3, 1, 3] calls⟩

end WorkQueue
end ParserGen
