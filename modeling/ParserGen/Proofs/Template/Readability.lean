import ParserGen.Proofs.Template.SortedInstances

/-!
# Unique readability

A parameter is written as its head, with the arguments of an application in brackets.  If no name
has brackets or commas in it, and no application is to no arguments, the end of a parameter can be
told from what stands after it.  So what is written determines the parameter.

Main results:

- Theorem `Parameter.append_inj_of_plain`: a plain name ends before the next bracket or comma.
- Theorem `Parameter.Readable.text_append_inj`: so does a parameter that is made of plain names.
- Theorem `Parameter.Readable.text_inj`: different parameters are written differently.
-/

namespace ParserGen
namespace Parameter

/-- The characters that are written around arguments. -/
def IsPunctuation (c : Char) : Prop := c = '(' ∨ c = ')' ∨ c = ','

/-- Whether a name is free of the characters that are written around arguments. -/
def Plain (name : String) : Prop := ∀ c ∈ name.toList, ¬ IsPunctuation c

instance : DecidablePred IsPunctuation := fun c =>
  inferInstanceAs (Decidable (c = '(' ∨ c = ')' ∨ c = ','))

instance : DecidablePred Plain := fun name =>
  List.decidableBAll (¬ IsPunctuation ·) name.toList

/-- What can be read back: no application in it is to no arguments, and its names are plain. -/
structure Readable (p : Parameter) : Prop where
  normal : p.Normal
  plain : ∀ name ∈ p.names, Plain name

variable {p q : Parameter} {ps qs : List Parameter} {f name other : String}
  {rest rest' : List Char}

theorem Readable.plain_head (h : p.Readable) : Plain p.head := h.plain p.head p.head_mem_names

theorem Readable.of_mem_args (h : p.Readable) (hq : q ∈ p.args) : q.Readable :=
  ⟨h.normal.of_mem_args hq, fun name hname => h.plain name (names_args_subset hq hname)⟩

/-! ## What is written -/

/-- What is written after the first argument: the others, each after a comma, and a bracket. -/
def closing : List Parameter → List Char
  | [] => [')']
  | p :: rest => ',' :: (p.text.toList ++ closing rest)

theorem toList_intercalate_texts (first : String) (ps : List Parameter) :
    (String.intercalate "," (first :: texts ps) ++ ")").toList = first.toList ++ closing ps := by
  induction ps generalizing first with
  | nil => simp [texts, closing]
  | cons p ps ih =>
    rw [texts, String.intercalate_cons_cons, String.append_assoc, String.toList_append, ih, closing]
    simp

/-- An application to arguments is written with brackets around them. -/
theorem toList_text_app (f : String) (p : Parameter) (ps : List Parameter) (rest : List Char) :
    (app f (p :: ps)).text.toList ++ rest =
      f.toList ++ '(' :: (p.text.toList ++ (closing ps ++ rest)) := by
  rw [text, String.append_assoc, String.toList_append, toList_intercalate_texts]
  simp

/-! ## Reading back -/

/-- What stands after a name: nothing, or something that no plain name has in it. -/
def AfterName (rest : List Char) : Prop := ∀ c ∈ rest.head?, IsPunctuation c

/-- What stands after a parameter: nothing, or a comma or closing bracket. -/
def AfterParameter (rest : List Char) : Prop := ∀ c ∈ rest.head?, c = ')' ∨ c = ','

theorem AfterParameter.afterName (h : AfterParameter rest) : AfterName rest :=
  fun c hc => Or.inr (h c hc)

theorem afterName_bracket (rest : List Char) : AfterName ('(' :: rest) := by
  simp [AfterName, IsPunctuation]

theorem afterParameter_closing (ps : List Parameter) (rest : List Char) :
    AfterParameter (closing ps ++ rest) := by
  cases ps <;> simp [AfterParameter, closing]

/-- An opening bracket does not stand after a parameter. -/
theorem AfterParameter.ne_bracket (h : AfterParameter rest) : rest ≠ '(' :: rest' := by
  rintro rfl
  simpa using h '(' rfl

theorem takeWhile_of_plain (hname : Plain name) (hrest : AfterName rest) :
    (name.toList ++ rest).takeWhile (¬ IsPunctuation ·) = name.toList := by
  rw [List.takeWhile_append_of_pos fun c hc => decide_eq_true (hname c hc)]
  cases rest with
  | nil => simp
  | cons c rest =>
    have hc : IsPunctuation c := hrest c rfl
    simp [hc]

/-- A plain name ends before the next bracket or comma. -/
theorem append_inj_of_plain (hname : Plain name) (hother : Plain other) (hrest : AfterName rest)
    (hrest' : AfterName rest') (h : name.toList ++ rest = other.toList ++ rest') :
    name = other ∧ rest = rest' := by
  have hsame : name.toList = other.toList := by
    rw [← takeWhile_of_plain hname hrest, h, takeWhile_of_plain hother hrest']
  exact ⟨String.toList_inj.mp hsame, List.append_cancel_left (hsame ▸ h)⟩

mutual

/-- A parameter ends before the next comma or closing bracket that is not its own. -/
theorem Readable.text_append_inj : ∀ {p q : Parameter} {rest rest' : List Char}, p.Readable →
    q.Readable → AfterParameter rest → AfterParameter rest' →
    p.text.toList ++ rest = q.text.toList ++ rest' → p = q ∧ rest = rest'
  | .var _, .var _, _, _, hp, hq, hrest, hrest', h => by
    obtain ⟨rfl, rfl⟩ := append_inj_of_plain hp.plain_head hq.plain_head hrest.afterName
      hrest'.afterName h
    exact ⟨rfl, rfl⟩
  | .var _, .app f (q :: qs), rest, rest', hp, hq, hrest, _, h => by
    rw [toList_text_app] at h
    have hafter := (append_inj_of_plain hp.plain_head hq.plain_head hrest.afterName
      (afterName_bracket _) h).2
    exact absurd hafter hrest.ne_bracket
  | .app f (p :: ps), .var _, rest, rest', hp, hq, _, hrest', h => by
    rw [toList_text_app] at h
    have hafter := (append_inj_of_plain hp.plain_head hq.plain_head (afterName_bracket _)
      hrest'.afterName h).2
    exact absurd hafter.symm hrest'.ne_bracket
  | .app f (p :: ps), .app f' (q :: qs), rest, rest', hp, hq, hrest, hrest', h => by
    rw [toList_text_app, toList_text_app] at h
    obtain ⟨rfl, hinside⟩ := append_inj_of_plain hp.plain_head hq.plain_head (afterName_bracket _)
      (afterName_bracket _) h
    obtain ⟨rfl, hclosing⟩ := (hp.of_mem_args List.mem_cons_self).text_append_inj
      (hq.of_mem_args List.mem_cons_self) (afterParameter_closing ps rest)
      (afterParameter_closing qs rest') (List.cons.inj hinside).2
    obtain ⟨rfl, rfl⟩ := closing_append_inj (fun r hr => hp.of_mem_args (List.mem_cons_of_mem _ hr))
      (fun r hr => hq.of_mem_args (List.mem_cons_of_mem _ hr)) hrest hrest' hclosing
    exact ⟨rfl, rfl⟩
  | .app _ [], _, _, _, hp, _, _, _, _ => absurd rfl hp.normal.1
  | .var _, .app _ [], _, _, _, hq, _, _, _ => absurd rfl hq.normal.1
  | .app _ (_ :: _), .app _ [], _, _, _, hq, _, _, _ => absurd rfl hq.normal.1

theorem closing_append_inj : ∀ {ps qs : List Parameter} {rest rest' : List Char},
    (∀ p ∈ ps, p.Readable) → (∀ q ∈ qs, q.Readable) → AfterParameter rest → AfterParameter rest' →
    closing ps ++ rest = closing qs ++ rest' → ps = qs ∧ rest = rest'
  | [], [], _, _, _, _, _, _, h => ⟨rfl, List.append_cancel_left h⟩
  | [], _ :: _, _, _, _, _, _, _, h => by simp [closing] at h
  | _ :: _, [], _, _, _, _, _, _, h => by simp [closing] at h
  | p :: ps, q :: qs, rest, rest', hps, hqs, hrest, hrest', h => by
    obtain ⟨hp, hothers⟩ := List.forall_mem_cons.mp hps
    obtain ⟨hq, hothers'⟩ := List.forall_mem_cons.mp hqs
    simp only [closing, List.cons_append, List.cons.injEq, true_and, List.append_assoc] at h
    obtain ⟨rfl, hclosing⟩ := hp.text_append_inj hq (afterParameter_closing ps rest)
      (afterParameter_closing qs rest') h
    obtain ⟨rfl, rfl⟩ := closing_append_inj hothers hothers' hrest hrest' hclosing
    exact ⟨rfl, rfl⟩

end

/-- Different parameters are written differently. -/
theorem Readable.text_inj (hp : p.Readable) (hq : q.Readable) (h : p.text = q.text) : p = q := by
  have hnil : AfterParameter [] := by simp [AfterParameter]
  exact (hp.text_append_inj hq hnil hnil (by rw [h])).1

end Parameter
end ParserGen
