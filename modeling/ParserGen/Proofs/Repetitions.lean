import Mathlib.Data.List.Induction
import Mathlib.Data.List.Nodup

/-!
# Lists without repetitions

`List.eraseDups` keeps each value of a list where it stands first.  So what is appended to a list is
kept if it does not stand there, and what is known of these lists follows by appending one value
after another.

Main results:

- Theorem `nodup_eraseDups`: no value is kept twice.
- Theorem `eraseDups_map`: different values are as much different under a map that keeps them apart.
-/

namespace ParserGen

variable {α β : Type} [DecidableEq α] [DecidableEq β] {l : List α} {a : α}

theorem eraseDups_concat_of_mem (ha : a ∈ l) : (l ++ [a]).eraseDups = l.eraseDups := by
  simp [List.eraseDups_append, List.removeAll, ha]

theorem eraseDups_concat_of_not_mem (ha : a ∉ l) :
    (l ++ [a]).eraseDups = l.eraseDups ++ [a] := by
  simp [List.eraseDups_append, List.removeAll, ha, List.eraseDups_cons]

theorem nodup_eraseDups (l : List α) : l.eraseDups.Nodup := by
  induction l using List.reverseRecOn with
  | nil => simp
  | append_singleton l a ih =>
    by_cases ha : a ∈ l
    · rwa [eraseDups_concat_of_mem ha]
    · rw [eraseDups_concat_of_not_mem ha, ← List.concat_eq_append]
      exact ih.concat (mt List.mem_eraseDups.mp ha)

/-- Different values are as much different under a map that keeps them apart. -/
theorem eraseDups_map {f : α → β} (hf : ∀ a ∈ l, ∀ b ∈ l, f a = f b → a = b) :
    (l.map f).eraseDups = l.eraseDups.map f := by
  induction l using List.reverseRecOn with
  | nil => simp
  | append_singleton l a ih =>
    have hrest : (l.map f).eraseDups = l.eraseDups.map f :=
      ih fun b hb c hc => hf b (List.mem_append_left _ hb) c (List.mem_append_left _ hc)
    rw [List.map_append, List.map_singleton]
    by_cases ha : a ∈ l
    · rw [eraseDups_concat_of_mem ha, eraseDups_concat_of_mem (List.mem_map_of_mem ha), hrest]
    · have hout : f a ∉ l.map f := by
        intro h
        obtain ⟨b, hb, hab⟩ := List.mem_map.mp h
        have hsame := hf b (List.mem_append_left _ hb) a (List.mem_append_right _ (by simp)) hab
        exact ha (hsame ▸ hb)
      rw [eraseDups_concat_of_not_mem ha, eraseDups_concat_of_not_mem hout, hrest,
        List.map_append, List.map_singleton]

/-- In a list without repetitions each value has its place. -/
theorem map_idxOf_eq_range (h : l.Nodup) : l.map l.idxOf = List.range l.length := by
  refine List.ext_getElem (by simp) fun i hi _ => ?_
  rw [List.length_map] at hi
  rw [List.getElem_map, List.getElem_range, h.idxOf_getElem i hi]

end ParserGen
