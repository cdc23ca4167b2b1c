import ParserGen.Proofs.Results
import ParserGen.Proofs.Sorts.Decoding
import ParserGen.Proofs.Sorts.Unification

/-!
# Unification and reading back come to an end

Links are followed, parts of a sort searched, sorts unified and read back within bounds that are set
beforehand.  The computations behind them know no bounds: they go on until there is no link to
follow, no representative to look at and no pair to unify.  They have no result where links never
end, or where a sort that is read is a part of itself.  No series of calls closes such a cycle, not
even with calls that give up half-way, so each computation has one result, and it is that of the
bounded one.

Main results:

- Theorem `SortArena.not_decodes_of_part`: nothing is read where a sort is a part of itself.
- Theorem `SortArena.WellFormed.finds_iff`: finding a representative ends.
- Theorem `SortArena.WellFormed.occurs_iff`: the search for a part ends.
- Theorem `SortArena.WellFormed.unifies_iff`: unification ends.
- Theorem `SortArena.WellFormed.decodes_iff`: reading back ends.
- Theorem `SortArena.computations_end`: all of this in every arena that calls can lead to.
-/

namespace ParserGen
namespace SortArena

/-! ## Computations without bounds

Each relation holds of what a computation starts with and of what it has when it has ended. -/

/-- Link to `root` the variables on the way from `v` to it. -/
inductive Compresses (root : Nat) : SortArena → Nat → SortArena → Prop
  | last {a : SortArena} {v : Nat} : (∀ w, ¬ a.Linked v w) → Compresses root a v a
  | next {a b : SortArena} {v w : Nat} : a.Linked v w → Compresses root (a.link v root) w b →
      Compresses root a v b

/-- Follow the links from `v`, and then link to their end all variables on the way. -/
def Finds (a : SortArena) (v : Nat) (result : Nat × SortArena) : Prop :=
  a.Represents v result.1 ∧ Compresses result.1 a v result.2

/-- Look at operands in turn until one of them is represented by `target`. -/
def PartSearch.Looks (target : Nat) : List Nat → PartSearch → Bool × PartSearch → Prop
  | [], search, result => result = (false, search)
  | operand :: rest, search, result =>
      ∃ found, search.arena.Finds operand found ∧
        if found.1 = target then result = (true, { search with arena := found.2 })
        else if search.visited.contains found.1 then
          Looks target rest { search with arena := found.2 } result
        else
          Looks target rest ⟨found.2, search.visited.insert found.1, found.1 :: search.stack⟩ result

/-- Go on with a search until the target is found or no representative is left. -/
inductive PartSearch.Runs (target : Nat) : PartSearch → Bool × SortArena → Prop
  | exhausted {a : SortArena} {visited : IdSet} : Runs target ⟨a, visited, []⟩ (false, a)
  | found {a : SortArena} {visited : IdSet} {root : Nat} {stack : List Nat} {after : PartSearch} :
      Looks target ((a.operands? root).getD []) ⟨a, visited, stack⟩ (true, after) →
      Runs target ⟨a, visited, root :: stack⟩ (true, after.arena)
  | next {a : SortArena} {visited : IdSet} {root : Nat} {stack : List Nat} {after : PartSearch}
      {result : Bool × SortArena} :
      Looks target ((a.operands? root).getD []) ⟨a, visited, stack⟩ (false, after) →
      Runs target after result → Runs target ⟨a, visited, root :: stack⟩ result

/-- Find out whether `target` is a proper part of the sort of `root`. -/
def Occurs (a : SortArena) (target root : Nat) (result : Bool × SortArena) : Prop :=
  PartSearch.Runs target ⟨a, ∅, [root]⟩ result

/-- Find out whether one of two representatives is a proper part of the sort of the other one. -/
def OccursEither (a : SortArena) (r s : Nat) (result : Bool × SortArena) : Prop :=
  ∃ first, a.Occurs r s first ∧
    if first.1 then result = (true, first.2) else first.2.Occurs s r result

/-- Link `r` to `s`, unless it is a part of that. -/
def LinksUnlessPart (a : SortArena) (cause : UnifyError) (r s : Nat)
    (result : Except UnifyError (List (Nat × Nat)) × SortArena) : Prop :=
  ∃ answer, a.Occurs r s answer ∧
    result = if answer.1 then (.error cause, answer.2) else (.ok [], answer.2.link r s)

/-- Let two representatives stand for the same sort, provided that the pairs of the result do. -/
def JoinsRoots (a : SortArena) (v w r s : Nat)
    (result : Except UnifyError (List (Nat × Nat)) × SortArena) : Prop :=
  if r = s then result = (.ok [], a)
  else
    match a.operands? r, a.operands? s with
    | none, none => result = (.ok [], a.link r s)
    | none, some _ => a.LinksUnlessPart (.occurs v w) r s result
    | some _, none => a.LinksUnlessPart (.occurs v w) s r result
    | some d, some e =>
        if d.length ≠ e.length then result = (.error (.arity v w), a)
        else
          ∃ answer, a.OccursEither r s answer ∧
            result = if answer.1 then (.error (.occurs v w), answer.2)
              else (.ok (d.zip e), answer.2.link r s)

/-- Let two variables stand for the same sort, provided that the pairs of the result do. -/
def Joins (a : SortArena) (v w : Nat)
    (result : Except UnifyError (List (Nat × Nat)) × SortArena) : Prop :=
  ∃ first, a.Finds v first ∧ ∃ second, first.2.Finds w second ∧
    second.2.JoinsRoots v w first.1 second.1 result

/-- Unify pairs in turn.  What is left to unify of a pair is unified before the next one. -/
inductive UnifiesAll :
    SortArena → List (Nat × Nat) → Except UnifyError Unit × SortArena → Prop
  | nil {a : SortArena} : UnifiesAll a [] (.ok (), a)
  | fails {a b : SortArena} {v w : Nat} {pairs : List (Nat × Nat)} {cause : UnifyError} :
      a.Joins v w (.error cause, b) → UnifiesAll a ((v, w) :: pairs) (.error cause, b)
  | failsWithin {a b c : SortArena} {v w : Nat} {more pairs : List (Nat × Nat)}
      {cause : UnifyError} : a.Joins v w (.ok more, b) → UnifiesAll b more (.error cause, c) →
      UnifiesAll a ((v, w) :: pairs) (.error cause, c)
  | next {a b c : SortArena} {v w : Nat} {more pairs : List (Nat × Nat)}
      {result : Except UnifyError Unit × SortArena} : a.Joins v w (.ok more, b) →
      UnifiesAll b more (.ok (), c) → UnifiesAll c pairs result →
      UnifiesAll a ((v, w) :: pairs) result

/-- Unify two variables, and then the operands that this leaves. -/
def Unifies (a : SortArena) (v w : Nat) (result : Except UnifyError Unit × SortArena) : Prop :=
  a.UnifiesAll [(v, w)] result

/-- Read the sort of a variable, and those of all operands that are met. -/
inductive Decodes (a : SortArena) : Nat → SortTerm → Prop
  | unknown {v r : Nat} : a.Represents v r → a.operands? r = none → Decodes a v (.var r)
  | arrow {v r : Nat} {operands : List Nat} {domain : List SortTerm} : a.Represents v r →
      a.operands? r = some operands → List.Forall₂ (Decodes a) operands domain →
      Decodes a v (.arrow domain)

variable {a b : SortArena} {v w r s target root : Nat}

/-! ## One step of a computation -/

/-- Compressing a path that goes on links its first variable and compresses the rest. -/
theorem compresses_iff_of_linked (hlink : a.Linked v w) :
    Compresses r a v b ↔ Compresses r (a.link v r) w b := by
  refine ⟨fun h => ?_, .next hlink⟩
  cases h with
  | last hlast => exact absurd hlink (hlast w)
  | next hlink' hrest => exact hlink.unique hlink' ▸ hrest

/-- Compressing a path that has come to its end does nothing. -/
theorem compresses_iff_of_last (hlast : ∀ w, ¬ a.Linked v w) : Compresses r a v b ↔ b = a := by
  constructor
  · intro h
    cases h with
    | last _ => rfl
    | next hlink _ => exact absurd hlink (hlast _)
  · rintro rfl
    exact .last hlast

/-- A search with nothing left to look at has found nothing. -/
theorem PartSearch.runs_nil {visited : IdSet} {result : Bool × SortArena} :
    Runs target ⟨a, visited, []⟩ result ↔ result = (false, a) := by
  constructor
  · rintro ⟨⟩
    rfl
  · rintro rfl
    exact .exhausted

theorem PartSearch.runs_cons {visited : IdSet} {stack : List Nat} {result : Bool × SortArena} :
    Runs target ⟨a, visited, root :: stack⟩ result ↔
      ∃ looked, Looks target ((a.operands? root).getD []) ⟨a, visited, stack⟩ looked ∧
        if looked.1 then result = (true, looked.2.arena) else Runs target looked.2 result := by
  constructor
  · intro h
    cases h with
    | found hlooks => exact ⟨_, hlooks, rfl⟩
    | next hlooks hrest => exact ⟨_, hlooks, hrest⟩
  · rintro ⟨⟨found, after⟩, hlooks, hrest⟩
    cases found with
    | true =>
      obtain rfl : result = (true, after.arena) := hrest
      exact .found hlooks
    | false => exact .next hlooks hrest

theorem unifiesAll_nil {result : Except UnifyError Unit × SortArena} :
    a.UnifiesAll [] result ↔ result = (.ok (), a) := by
  constructor
  · rintro ⟨⟩
    rfl
  · rintro rfl
    exact .nil

/-- The second part of a list is reached if the first one can be unified. -/
theorem unifiesAll_append {more pairs : List (Nat × Nat)}
    {result : Except UnifyError Unit × SortArena} :
    a.UnifiesAll (more ++ pairs) result ↔ ∃ first, a.UnifiesAll more first ∧
      match first with
      | (.error _, _) => result = first
      | (.ok (), b) => b.UnifiesAll pairs result := by
  induction more generalizing a with
  | nil => simp only [List.nil_append, unifiesAll_nil, exists_eq_left]
  | cons pair more ih =>
    constructor
    · intro h
      cases h with
      | fails hjoins => exact ⟨_, .fails hjoins, rfl⟩
      | failsWithin hjoins hwithin => exact ⟨_, .failsWithin hjoins hwithin, rfl⟩
      | next hjoins hwithin hrest =>
        obtain ⟨first, hfirst, hresult⟩ := ih.mp hrest
        exact ⟨first, .next hjoins hwithin hfirst, hresult⟩
    · rintro ⟨first, hfirst, hresult⟩
      cases hfirst with
      | fails hjoins =>
        obtain rfl := hresult
        exact .fails hjoins
      | failsWithin hjoins hwithin =>
        obtain rfl := hresult
        exact .failsWithin hjoins hwithin
      | next hjoins hwithin hrest => exact .next hjoins hwithin (ih.mpr ⟨first, hrest, hresult⟩)

/-- What a pair leaves to unify may as well be put before the other pairs. -/
theorem unifiesAll_cons {pairs : List (Nat × Nat)} {result : Except UnifyError Unit × SortArena} :
    a.UnifiesAll ((v, w) :: pairs) result ↔ ∃ joined, a.Joins v w joined ∧
      match joined with
      | (.error cause, b) => result = (.error cause, b)
      | (.ok more, b) => b.UnifiesAll (more ++ pairs) result := by
  constructor
  · intro h
    cases h with
    | fails hjoins => exact ⟨_, hjoins, rfl⟩
    | failsWithin hjoins hwithin => exact ⟨_, hjoins, unifiesAll_append.mpr ⟨_, hwithin, rfl⟩⟩
    | next hjoins hwithin hrest => exact ⟨_, hjoins, unifiesAll_append.mpr ⟨_, hwithin, hrest⟩⟩
  · rintro ⟨⟨_ | more, b⟩, hjoins, hrest⟩
    · obtain rfl := hrest
      exact .fails hjoins
    · obtain ⟨⟨_ | _, c⟩, hwithin, hresult⟩ := unifiesAll_append.mp hrest
      · obtain rfl := hresult
        exact .failsWithin hjoins hwithin
      · exact .next hjoins hwithin hresult

/-- An unknown sort is decoded to its representative. -/
theorem decodes_iff_of_unknown (hr : a.Represents v r) (hnone : a.operands? r = none)
    {t : SortTerm} : a.Decodes v t ↔ t = .var r := by
  constructor
  · intro h
    cases h with
    | unknown hr' _ => rw [hr'.unique hr]
    | arrow hr' hsome _ =>
      rw [hr'.unique hr, hnone] at hsome
      cases hsome
  · rintro rfl
    exact .unknown hr hnone

/-- An arrow is decoded to the arrow of its decoded operands. -/
theorem decodes_iff_of_arrow (hr : a.Represents v r) {operands : List Nat}
    (hsome : a.operands? r = some operands) {t : SortTerm} :
    a.Decodes v t ↔ ∃ domain, List.Forall₂ a.Decodes operands domain ∧ t = .arrow domain := by
  constructor
  · intro h
    cases h with
    | unknown hr' hnone =>
      rw [hr'.unique hr, hsome] at hnone
      cases hnone
    | arrow hr' hsome' hdomain =>
      rw [hr'.unique hr, hsome] at hsome'
      cases hsome'
      exact ⟨_, hdomain, rfl⟩
  · rintro ⟨domain, hdomain, rfl⟩
    exact .arrow hr hsome hdomain

/-! ## Parts -/

/-- A variable is decoded like its representative. -/
theorem Decodes.of_represents {t : SortTerm} (h : a.Decodes v t) (hr : a.Represents v r) :
    a.Decodes r t := by
  cases h with
  | unknown hr' hnone =>
    obtain rfl := hr'.unique hr
    exact .unknown (.refl hr.last) hnone
  | arrow hr' hsome hdomain =>
    obtain rfl := hr'.unique hr
    exact .arrow (.refl hr.last) hsome hdomain

/-- What is read for a proper part of a sort is smaller than what is read for the sort. -/
theorem Decodes.exists_of_part {t : SortTerm} (h : a.Decodes r t)
    (hpart : Relation.TransGen a.Child r s) :
    ∃ part, a.Decodes s part ∧ sizeOf part < sizeOf t := by
  have hchild : ∀ {r s t}, a.Decodes r t → a.Child r s →
      ∃ part, a.Decodes s part ∧ sizeOf part < sizeOf t := by
    rintro r s t h ⟨operands, v, hcell, hv, hs⟩
    obtain ⟨domain, hdomain, rfl⟩ :=
      (decodes_iff_of_arrow (.of_arrow hcell) (operands?_of_arrow hcell)).mp h
    obtain ⟨part, hmem, hpart⟩ := exists_of_forall₂ hdomain hv
    refine ⟨part, hpart.of_represents hs, ?_⟩
    have hless := List.sizeOf_lt_of_mem hmem
    rw [SortTerm.arrow.sizeOf_spec]
    omega
  induction hpart with
  | single hrs => exact hchild h hrs
  | tail _ hst ih =>
    obtain ⟨part, hpart, hless⟩ := ih
    obtain ⟨part', hpart', hless'⟩ := hchild hpart hst
    exact ⟨part', hpart', hless'.trans hless⟩

/-- Nothing is read where a sort is a part of itself. -/
theorem not_decodes_of_part {t : SortTerm} (hpart : Relation.TransGen a.Child r r) :
    ¬ a.Decodes r t := by
  intro h
  induction hsize : sizeOf t using Nat.strong_induction_on generalizing t with
  | h size ih =>
    obtain ⟨part, hdecodes, hless⟩ := h.exists_of_part hpart
    exact ih _ (hsize ▸ hless) hdecodes rfl

namespace WellFormed

/-! ## Finding representatives -/

/-- While variables are linked to their representative, what is still to be passed gets less. -/
theorem compresses_iff (h : a.WellFormed) (hr : a.Represents v r) {steps : Nat}
    (hsteps : height a v ≤ steps) : Compresses r a v b ↔ b = a.compress r steps v := by
  induction steps generalizing a v with
  | zero =>
    refine compresses_iff_of_last fun w hlink => ?_
    have hlower := h.height_lt hlink.points
    omega
  | succ steps ih =>
    simp only [compress]
    split
    · rename_i next hlink
      have hcompressed := compressed_link hlink hr
      have hlower := h.height_lt (Linked.points hlink)
      have hkept := hcompressed.height_le next
      rw [compresses_iff_of_linked hlink]
      exact ih (hcompressed.wellFormed h) (hcompressed.represents (hr.tail hlink)) (by omega)
    · rename_i hlast
      exact compresses_iff_of_last hlast

/-- Finding a representative ends. -/
theorem finds_iff (h : a.WellFormed) {result : Nat × SortArena} :
    a.Finds v result ↔ result = a.find v := by
  have hsteps : height a v ≤ a.cells.size := by
    have hle := height_le_card a.Points (Finset.range a.cells.size) v
    rwa [Finset.card_range] at hle
  have hroot := h.root_represents v
  obtain ⟨r, b⟩ := result
  constructor
  · rintro ⟨hr, hb⟩
    obtain rfl : r = a.root v := hr.unique hroot
    exact congrArg (Prod.mk _) ((h.compresses_iff hroot hsteps).mp hb)
  · rintro ⟨⟩
    exact ⟨hroot, (h.compresses_iff hroot hsteps).mpr rfl⟩

/-! ## Searching parts -/

/-- Looking at operands comes to an end, with what the program finds. -/
theorem looks_iff {search : PartSearch} (h : search.arena.WellFormed) {operands : List Nat}
    {result : Bool × PartSearch} :
    PartSearch.Looks target operands search result ↔
      result = PartSearch.look target operands search := by
  induction operands generalizing search with
  | nil => rfl
  | cons operand operands ih =>
    have hnext := (h.find_spec operand).2.wellFormed h
    simp only [PartSearch.Looks, PartSearch.look, h.finds_iff, exists_eq_left]
    split
    · rfl
    · split
      · exact ih hnext
      · exact ih hnext

/-- A search that is under way ends, and within its budget. -/
theorem runs_iff (h : a.WellFormed) {steps : Nat} {search : PartSearch}
    (hsearch : PartSearch.Underway a target root search)
    (hbudget : search.budget a.cells.size ≤ steps) {result : Bool × SortArena} :
    PartSearch.Runs target search result ↔ result = PartSearch.run target steps search := by
  induction steps generalizing search with
  | zero =>
    obtain ⟨b, visited, stack⟩ := search
    obtain rfl : stack = [] := PartSearch.stack_eq_nil hbudget
    exact PartSearch.runs_nil
  | succ steps ih =>
    obtain ⟨b, visited, stack⟩ := search
    cases stack with
    | nil => exact PartSearch.runs_nil
    | cons r stack =>
      have hturn := (hsearch.turn h).2
      have hb : b.WellFormed := hsearch.compressed.wellFormed h
      have hlooks {answer : Bool × PartSearch} :
          PartSearch.Looks target ((b.operands? r).getD []) ⟨b, visited, stack⟩ answer ↔
            answer = PartSearch.look target ((b.operands? r).getD []) ⟨b, visited, stack⟩ :=
        looks_iff hb
      simp only [PartSearch.runs_cons, PartSearch.run, hlooks, exists_eq_left]
      generalize PartSearch.look target ((b.operands? r).getD []) ⟨b, visited, stack⟩ = looked
        at hturn
      obtain ⟨found, after⟩ := looked
      cases found with
      | true => exact Iff.rfl
      | false =>
        obtain ⟨hafter, hless⟩ := hturn rfl
        exact ih hafter (Nat.le_of_lt_succ (hless.trans_le hbudget))

/-- The search for a part ends. -/
theorem occurs_iff (h : a.WellFormed) {result : Bool × SortArena} :
    a.Occurs target root result ↔ result = a.occurs target root :=
  h.runs_iff (.initial a target root) (PartSearch.budget_initial a root)

/-- Both searches for a part come to an end, with what the program finds. -/
theorem occursEither_iff (h : a.WellFormed) {result : Bool × SortArena} :
    a.OccursEither r s result ↔ result = a.occursEither r s := by
  have hfirst := (h.occurs_spec r s).1.wellFormed h
  simp only [OccursEither, occursEither, h.occurs_iff, exists_eq_left]
  generalize a.occurs r s = first at hfirst
  obtain ⟨found, b⟩ := first
  cases found with
  | true => exact Iff.rfl
  | false => exact hfirst.occurs_iff

/-! ## Unifying -/

/-- Linking an unknown sort comes to an end, with what the program does. -/
theorem linksUnlessPart_iff (h : a.WellFormed) {cause : UnifyError}
    {result : Except UnifyError (List (Nat × Nat)) × SortArena} :
    a.LinksUnlessPart cause r s result ↔ result = a.linkUnlessPart cause r s := by
  simp only [LinksUnlessPart, linkUnlessPart, h.occurs_iff, exists_eq_left]
  obtain ⟨found, b⟩ := a.occurs r s
  cases found <;> exact Iff.rfl

/-- Joining two representatives comes to an end, with what the program does. -/
theorem joinsRoots_iff (h : a.WellFormed)
    {result : Except UnifyError (List (Nat × Nat)) × SortArena} :
    a.JoinsRoots v w r s result ↔ result = a.unifyRoots v w r s := by
  simp only [JoinsRoots, unifyRoots, h.linksUnlessPart_iff, h.occursEither_iff, exists_eq_left]
  split
  · exact Iff.rfl
  · cases a.operands? r with
    | none => cases a.operands? s <;> exact Iff.rfl
    | some d =>
      cases a.operands? s with
      | none => exact Iff.rfl
      | some e =>
        simp only
        split
        · exact Iff.rfl
        · obtain ⟨found, b⟩ := a.occursEither r s
          cases found <;> exact Iff.rfl

/-- What is done for two variables ends. -/
theorem joins_iff (h : a.WellFormed)
    {result : Except UnifyError (List (Nat × Nat)) × SortArena} :
    a.Joins v w result ↔ result = a.unifyOnce v w := by
  have hfirst := (h.find_spec v).2.wellFormed h
  have hsecond := (hfirst.find_spec w).2.wellFormed hfirst
  simp only [Joins, unifyOnce, h.finds_iff, exists_eq_left, hfirst.finds_iff,
    hsecond.joinsRoots_iff]

/-- Unifying the pairs of a list ends, and within the number of pairs and operands. -/
theorem unifiesAll_iff (h : a.WellFormed) {pairs : List (Nat × Nat)}
    (hpairs : ∀ pair ∈ pairs, pair.1 < a.cells.size ∧ pair.2 < a.cells.size) {steps : Nat}
    (hsteps : pairs.length + a.operandCount < steps)
    {result : Except UnifyError Unit × SortArena} :
    a.UnifiesAll pairs result ↔ result = unifyPairs steps a pairs := by
  induction steps generalizing a pairs with
  | zero => exact absurd hsteps (Nat.not_lt_zero _)
  | succ steps ih =>
    cases pairs with
    | nil => exact unifiesAll_nil
    | cons pair pairs =>
      obtain ⟨v, w⟩ := pair
      obtain ⟨hv, hw⟩ := hpairs _ List.mem_cons_self
      have hstep := unifyOnce_spec h hv hw
      simp only [unifiesAll_cons, unifyPairs, h.joins_iff, exists_eq_left]
      generalize a.unifyOnce v w = joined at hstep
      obtain ⟨_ | more, b⟩ := joined
      · exact Iff.rfl
      · refine ih hstep.wellFormed (hstep.lt_of_append hpairs) ?_
        exact Nat.lt_of_lt_of_le (hstep.work_lt pairs) (Nat.le_of_lt_succ hsteps)

/-- Unification ends. -/
theorem unifies_iff (h : a.WellFormed) (hv : v < a.cells.size) (hw : w < a.cells.size)
    {result : Except UnifyError Unit × SortArena} :
    a.Unifies v w result ↔ result = a.unify v w := by
  refine h.unifiesAll_iff (List.forall_mem_singleton.mpr ⟨hv, hw⟩) ?_
  rw [List.length_singleton]
  omega

/-! ## Reading back -/

/-- The operands of a representative are lower than any variable that it represents. -/
theorem decodes_iff_of_height (h : a.WellFormed) {depth : Nat} (hdepth : height a v < depth)
    {t : SortTerm} : a.Decodes v t ↔ t = a.read depth v := by
  induction depth generalizing v t with
  | zero => exact absurd hdepth (Nat.not_lt_zero _)
  | succ depth ih =>
    have hroot := h.root_represents v
    simp only [read]
    split
    · rename_i operands hoperands
      have hlower : ∀ w ∈ operands, height a w < depth := by
        intro w hw
        have hrepresentative := h.height_represents hroot
        have hoperand := h.height_lt (Or.inr ⟨operands, arrow_of_operands? hoperands, hw⟩)
        omega
      rw [decodes_iff_of_arrow hroot hoperands]
      simp only [forall₂_iff_eq_map fun w hw t => ih (hlower w hw), exists_eq_left]
    · rename_i hnone
      exact decodes_iff_of_unknown hroot hnone

/-- Reading back ends. -/
theorem decodes_iff (h : a.WellFormed) (hv : v < a.cells.size) {t : SortTerm} :
    a.Decodes v t ↔ t = a.decode v :=
  h.decodes_iff_of_height (h.height_lt_size hv)

/-- No sort is a proper part of itself. -/
theorem acyclic_child (h : a.WellFormed) : Acyclic a.Child := by
  intro r hcycle
  refine h.acyclic r (Relation.TransGen.closed (fun x y hxy => ?_) _ _ hcycle)
  obtain ⟨operands, v, hcell, hv, hy⟩ := hxy
  exact .head' (Or.inr ⟨operands, hcell, hv⟩)
    (Relation.ReflTransGen.mono (fun _ _ => Linked.points) _ _ hy.path)

end WellFormed

/-! ## Arenas that can be reached -/

/-- In every arena that calls can lead to, links end in a representative and no sort is a part of
itself.  So all computations end, and they have the results that the bounded ones have. -/
theorem computations_end (ha : a.Reachable) :
    (∀ v < a.cells.size, ∃ r < a.cells.size, a.Represents v r) ∧ Acyclic a.Child ∧
      (∀ v < a.cells.size, (∀ r, a.Represents v r ↔ r = a.root v) ∧
        (∀ result, a.Finds v result ↔ result = a.find v) ∧ ∀ t, a.Decodes v t ↔ t = a.decode v) ∧
      ∀ v < a.cells.size, ∀ w < a.cells.size,
        (∀ result, a.Occurs v w result ↔ result = a.occurs v w) ∧
          ∀ result, a.Unifies v w result ↔ result = a.unify v w := by
  have h := ha.wellFormed
  refine ⟨fun v hv => ?_, h.acyclic_child, fun v hv => ⟨fun r => ?_, fun result => h.finds_iff,
    fun t => h.decodes_iff hv⟩, fun v hv w hw => ⟨fun result => h.occurs_iff,
    fun result => h.unifies_iff hv hw⟩⟩
  · have hroot := h.root_represents v
    exact ⟨a.root v, h.lt_of_represents hv hroot, hroot⟩
  · rw [← h.root_eq_iff, eq_comm]

/-- Two functions of two arguments.  The second argument of one takes an argument itself, where the
other one takes none. -/
def twoFunctions : SortArena :=
  ⟨#[.arrow [], .unknown, .unknown, .arrow [0], .arrow [1, 0], .arrow [2, 3]], defaultLimit⟩

/-- Two functions can be allocated. -/
theorem reachable_twoFunctions : twoFunctions.Reachable := by
  have hfresh : Reachable ⟨#[.arrow [], .unknown, .unknown], defaultLimit⟩ :=
    .fresh (.fresh (.withLimit defaultLimit) rfl) rfl
  have hargument : Reachable ⟨#[.arrow [], .unknown, .unknown, .arrow [0]], defaultLimit⟩ :=
    .arrow hfresh (by decide : ∀ w ∈ [0], w < 3) rfl
  have hfirst :
      Reachable ⟨#[.arrow [], .unknown, .unknown, .arrow [0], .arrow [1, 0]], defaultLimit⟩ :=
    .arrow hargument (by decide : ∀ w ∈ [1, 0], w < 4) rfl
  exact .arrow hfirst (by decide : ∀ w ∈ [2, 3], w < 5) rfl

/-- Unifying the two fails at their second arguments, when they and their first arguments are linked
already. -/
theorem computations_end_twoFunctions :
    (twoFunctions.unify 4 5).1 = .error (.arity 0 3) ∧
      (twoFunctions.unify 4 5).2.cells[4]? = some (.link 5) ∧
      (twoFunctions.unify 4 5).2.cells[1]? = some (.link 2) ∧
      (twoFunctions.unify 4 5).2.Reachable ∧ Acyclic (twoFunctions.unify 4 5).2.Child ∧
      (twoFunctions.unify 4 5).2.Decodes 4 (.arrow [.var 2, .arrow [.arrow []]]) ∧
      (twoFunctions.unify 4 5).2.Unifies 1 3
        (.ok (), ((twoFunctions.unify 4 5).2.unify 1 3).2) := by
  have hreachable : (twoFunctions.unify 4 5).2.Reachable :=
    .unify reachable_twoFunctions (by decide) (by decide)
  obtain ⟨_, hacyclic, hone, htwo⟩ := computations_end hreachable
  refine ⟨by decide +kernel, by decide +kernel, by decide +kernel, hreachable, hacyclic, ?_, ?_⟩
  · refine ((hone 4 (by decide +kernel)).2.2 _).mpr ?_
    decide +kernel
  · refine ((htwo 1 (by decide +kernel) 3 (by decide +kernel)).2 _).mpr ?_
    decide +kernel

end SortArena
end ParserGen
