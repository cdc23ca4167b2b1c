import ParserGen.Proofs.Grammar.Derivation
import ParserGen.Proofs.Grammar.Listing
import ParserGen.Proofs.Template.Instances
import ParserGen.Proofs.Template.SortInference

/-!
# The language of an expanded grammar

A string of symbols of the expanded grammar stands for a row of closed applications.  A production
rewrites the string where unfolding rewrites the row, so both lead to the same words of tokens.

Main results:

- Theorem `Expanded.mem_rules_iff`: the rules of the grammar are those of the instances.
- Theorem `Expanded.simulates`, `Expanded.simulated`: a production unfolds, and unfolding is a
  production.
- Theorem `Template.expand_preserves_language`: expansion preserves the language.
-/

namespace ParserGen

/-- The words that a nonterminal derives, as the names of their terminals. -/
def Grammar.language (g : Grammar) (n : Nat) : Set (List String) :=
  {w | ∃ v, g.Derives [.nonterminal n] (Grammar.sentence v) ∧
    v.map (fun a => g.name? (.terminal a)) = w.map some}

/-- The words of tokens that a closed application derives. -/
def Template.language (t : Template) (p : Parameter) : Set (List String) :=
  {w | w ⊆ t.tokens ∧ t.Derives [p] (w.map .var)}

/-! ## What an expansion declares -/

namespace Expansion

variable {src : ExpansionSource} {x : Expansion}

theorem terminals_of_declarations : (x.declarations src).filterMap Declaration.terminal? =
    src.template.tokens.map fun name => ⟨name, src.levels[name]?⟩ := by
  simp [declarations, List.filterMap_map, Function.comp_def, Declaration.terminal?]

theorem nonterminals_of_declarations : (x.declarations src).filterMap Declaration.nonterminal? =
    x.instances.toList.map (·.closed.text) := by
  simp [declarations, List.filterMap_map, Function.comp_def, Declaration.nonterminal?]

theorem start_of_declarations :
    (x.declarations src).filterMap Declaration.start? = [1] := by
  simp [declarations, List.filterMap_map, Function.comp_def, Declaration.start?]

theorem rule_mem_declarations {left : Nat} {right : List Symbol} {precedence : Option Precedence} :
    .rule left right precedence ∈ x.declarations src ↔
      ∃ r ∈ x.orderedRules src.template, r.owner + 1 = left ∧ r.right = right ∧
        r.precedence = precedence := by
  simp [declarations]

end Expansion

/-! ## Productions and unfoldings -/

/-- If each step on one side is a step on the other, so is each row of steps. -/
theorem exists_of_reflTransGen {α β : Type} {R : α → α → Prop} {S : β → β → Prop}
    {C : α → β → Prop} (hstep : ∀ a a' b, C a b → R a a' → ∃ b', S b b' ∧ C a' b') {a a' : α}
    {b : β} (hab : C a b) (hrun : Relation.ReflTransGen R a a') :
    ∃ b', Relation.ReflTransGen S b b' ∧ C a' b' := by
  induction hrun with
  | refl => exact ⟨b, .refl, hab⟩
  | tail _ hlast ih =>
    obtain ⟨b', hrun', hb'⟩ := ih
    obtain ⟨b'', hlast', hb''⟩ := hstep _ _ _ hb' hlast
    exact ⟨b'', hrun'.tail hlast', hb''⟩

/-- A grammar that is defined by what an expansion that has ended well declares. -/
structure Expanded (src : ExpansionSource) (x : Expansion) (g : Grammar) : Prop where
  wellNamed : src.template.WellNamed
  finished : x.Finished src
  declares : g.Declares (x.declarations src)

namespace Expanded

variable {src : ExpansionSource} {x : Expansion} {g : Grammar} {ps qs : List Parameter}
  {p : Parameter} {symbols next : List Symbol} {i : Nat} {right : List Symbol}

theorem name?_terminal (h : Expanded src x g) (i : Nat) :
    g.name? (.terminal (i + 1)) = src.template.tokens[i]? := by
  have hget := h.declares.terminals.getElem?_add (i + 1)
  rw [Nat.zero_add, List.getElem?_cons_succ, Expansion.terminals_of_declarations] at hget
  rw [Grammar.name?, hget, List.getElem?_map, Option.map_map]
  exact Option.map_id'

theorem name?_nonterminal (h : Expanded src x g) (i : Nat) :
    g.nonterminals[i + 1]? = x.instances[i]?.map (·.closed.text) := by
  have hget := h.declares.nonterminals.getElem?_add (i + 1)
  rw [Nat.zero_add, List.getElem?_cons_succ, Expansion.nonterminals_of_declarations] at hget
  rw [hget, List.getElem?_map, Array.getElem?_toList]

theorem start_eq (h : Expanded src x g) : g.start = 1 := by
  refine h.declares.start 1 ?_
  rw [Expansion.start_of_declarations]
  rfl

/-- The rules of the grammar are those of the instances. -/
theorem mem_rules_iff (h : Expanded src x g) :
    (∃ r ∈ g.ruleList, r.left = i + 1 ∧ r.right = right) ↔
      ∃ r ∈ x.rules, r.owner = i ∧ r.right = right := by
  -- The augmented rule belongs to the number zero, which no instance has.
  rw [h.declares.mem_ruleList]
  simp [Expansion.rule_mem_declarations, h.finished.mem_orderedRules, augmentedStart]

/-- The production of a nonterminal unfolds the closed application that it stands for. -/
theorem simulates (h : Expanded src x g) (hs : Expansion.SymbolsOf src x ps symbols)
    (hstep : g.Produces symbols next) :
    ∃ qs, src.template.Rewrites ps qs ∧ Expansion.SymbolsOf src x qs next := by
  obtain ⟨r, hr, before, after, rfl, rfl⟩ := hstep
  obtain ⟨front, rest, rfl, hfront, hrest⟩ := hs.exists_of_append_right
  obtain ⟨p, back, rfl, hp, hback⟩ := hrest.exists_of_cons_right
  obtain ⟨i, hi, hleft⟩ := Expansion.find?_of_symbolOf? hp
  obtain ⟨owned, howned, rfl, hright⟩ := h.mem_rules_iff.mp ⟨r, hr, hleft, rfl⟩
  obtain ⟨inst, elements, hget, hunfolds, hsymbols⟩ :=
    h.finished.exists_unfolds_of_rule h.wellNamed howned
  obtain ⟨inst', hget', rfl, _⟩ := Expansion.find?_eq_some_iff.mp hi
  cases hget.symm.trans hget'
  refine ⟨front ++ elements ++ back, ⟨_, elements, front, back, hunfolds, rfl, rfl⟩, ?_⟩
  exact (hfront.append (hright ▸ hsymbols)).append hback

/-- A closed application is unfolded by a production of the nonterminal that it has. -/
theorem simulated (h : Expanded src x g) (hs : Expansion.SymbolsOf src x ps symbols)
    (hstep : src.template.Rewrites ps qs) :
    ∃ next, g.Produces symbols next ∧ Expansion.SymbolsOf src x qs next := by
  obtain ⟨closed, elements, front, back, hunfolds, rfl, rfl⟩ := hstep
  obtain ⟨before, rest, rfl, hbefore, hrest⟩ := hs.exists_of_append_left
  obtain ⟨s, after, rfl, hclosed, hafter⟩ := hrest.exists_of_cons_left
  have htoken := ExpansionSource.token?_eq_none_of_unfolds h.wellNamed hunfolds
  obtain ⟨i, hi, rfl⟩ := Expansion.find?_of_not_token htoken hclosed
  obtain ⟨owned, howned, howner, hright⟩ :=
    h.finished.exists_rule_of_unfolds h.wellNamed hi hunfolds
  obtain ⟨r, hr, hleft, hsame⟩ := h.mem_rules_iff.mpr ⟨owned, howned, howner, rfl⟩
  refine ⟨before ++ r.right ++ after, ⟨r, hr, before, after, by rw [hleft], rfl⟩, ?_⟩
  exact (hbefore.append (hsame ▸ hright)).append hafter

/-! ## Words -/

/-- Closed applications that have terminals for symbols are tokens. -/
theorem tokens_of_sentence (h : Expanded src x g) (hnormal : ∀ p ∈ ps, p.Normal) {v : List Nat}
    (hs : Expansion.SymbolsOf src x ps (Grammar.sentence v)) {w : List String}
    (hw : v.map (fun a => g.name? (.terminal a)) = w.map some) :
    w ⊆ src.template.tokens ∧ ps = w.map .var := by
  induction v generalizing ps w with
  | nil =>
    obtain rfl := List.map_eq_nil_iff.mp hs
    obtain rfl := List.map_eq_nil_iff.mp hw.symm
    exact ⟨List.nil_subset _, rfl⟩
  | cons a v ih =>
    obtain ⟨p, rest, rfl, hp, hrest⟩ := hs.exists_of_cons_right
    obtain ⟨name, names, rfl, hname, hnames⟩ := List.map_eq_cons_iff.mp hw.symm
    obtain ⟨i, hi, rfl⟩ := Expansion.token?_of_symbolOf? hp
    obtain ⟨token, htoken, rfl⟩ :=
      (ExpansionSource.token?_eq_some_iff h.wellNamed (hnormal p List.mem_cons_self)).mp hi
    cases hname.trans ((h.name?_terminal i).trans htoken)
    obtain ⟨hsubset, rfl⟩ :=
      ih (fun q hq => hnormal q (List.mem_cons_of_mem _ hq)) hrest hnames.symm
    exact ⟨List.cons_subset.mpr ⟨List.mem_of_getElem? htoken, hsubset⟩, rfl⟩

/-- Tokens have terminals for symbols. -/
theorem sentence_of_tokens (h : Expanded src x g) {w : List String}
    (hw : w ⊆ src.template.tokens) (hs : Expansion.SymbolsOf src x (w.map .var) symbols) :
    ∃ v, symbols = Grammar.sentence v ∧
      v.map (fun a => g.name? (.terminal a)) = w.map some := by
  induction w generalizing symbols with
  | nil => exact ⟨[], List.map_eq_nil_iff.mp hs.symm, rfl⟩
  | cons name w ih =>
    obtain ⟨hname, hw⟩ := List.cons_subset.mp hw
    obtain ⟨i, hi⟩ := List.mem_iff_getElem?.mp hname
    have hnormal : (Parameter.var name).Normal := trivial
    have htoken := (ExpansionSource.token?_eq_some_iff h.wellNamed hnormal).mpr ⟨name, hi, rfl⟩
    obtain ⟨s, rest, rfl, hs, hrest⟩ := hs.exists_of_cons_left
    cases (Expansion.symbolOf?_of_token htoken).symm.trans hs
    obtain ⟨v, rfl, hv⟩ := ih hw hrest
    exact ⟨(i + 1) :: v, rfl, congrArg₂ List.cons ((h.name?_terminal i).trans hi) hv⟩

/-- An instance derives the same words as its nonterminal. -/
theorem language_eq (h : Expanded src x g) {inst : RuleInstance}
    (hi : x.instances[i]? = some inst) :
    g.language (i + 1) = src.template.language inst.closed := by
  have hfind := h.finished.bounded.find?_eq_some hi
  have hsymbol : Expansion.SymbolsOf src x [inst.closed] [.nonterminal (i + 1)] :=
    congrArg₂ List.cons (h.finished.symbolOf?_of_find? hfind) rfl
  have hnormal := h.finished.sound.normal inst (Array.mem_of_getElem? hi)
  ext w
  constructor
  · rintro ⟨v, hv, hw⟩
    obtain ⟨ps, hps, hs⟩ := exists_of_reflTransGen
      (C := fun symbols ps => Expansion.SymbolsOf src x ps symbols)
      (fun _ _ _ hs hstep => h.simulates hs hstep) hsymbol hv
    obtain ⟨htokens, rfl⟩ := h.tokens_of_sentence
      (Template.Derives.normal hps (List.forall_mem_singleton.mpr hnormal)) hs hw
    exact ⟨htokens, hps⟩
  · rintro ⟨htokens, hw⟩
    obtain ⟨symbols, hsymbols, hs⟩ := exists_of_reflTransGen
      (C := fun ps symbols => Expansion.SymbolsOf src x ps symbols)
      (fun _ _ _ hs hstep => h.simulated hs hstep) hsymbol hw
    obtain ⟨v, rfl, hv⟩ := h.sentence_of_tokens htokens hs
    exact ⟨v, hsymbols, hv⟩

end Expanded

/-! ## Expansion -/

namespace Template

variable {t : Template} {sorts : RuleSorts} {g : Grammar}

/-- Expansion preserves the language: the expanded grammar and the template derive the same words of
tokens from their start symbols, and each nonterminal derives the same words as the instance that it
stands for. -/
theorem expand_preserves_language (hsorts : t.inferSorts = .ok sorts)
    (hg : (t.expand sorts).result = .ok g) :
    ∃ levels x start, precedences ∅ 0 t.levels = .ok levels ∧
      Expansion.expandAll ⟨t, sorts, levels⟩ = (.ok (), x) ∧ t.startName? = some start ∧
      (∀ i, g.name? (.terminal (i + 1)) = t.tokens[i]?) ∧
      g.language g.start = t.language (.var start) ∧
      ∀ i inst, x.instances[i]? = some inst →
        g.nonterminals[i + 1]? = some inst.closed.text ∧
          g.language (i + 1) = t.language inst.closed := by
  obtain ⟨levels, x, hlevels, hx, hdefine⟩ := expand_eq_ok_iff.mp hg
  have hnames := wellNamed_of_inferSorts hsorts
  have h : Expanded ⟨t, sorts, levels⟩ x g :=
    ⟨hnames, Expansion.finished_of_expandAll hnames hx, Grammar.declares_of_define hdefine⟩
  obtain ⟨start, hstart, hfind⟩ := h.finished.start
  obtain ⟨inst, hinst, hclosed, _⟩ := Expansion.find?_eq_some_iff.mp hfind
  refine ⟨levels, x, start, hlevels, hx, hstart, h.name?_terminal, ?_, fun i inst hi => ⟨?_, ?_⟩⟩
  · rw [h.start_eq, h.language_eq hinst, hclosed]
  · rw [h.name?_nonterminal, hi]
    rfl
  · exact h.language_eq hi

/-- The sorts of the rules of `bracketedList`. -/
def bracketedListSorts : RuleSorts :=
  [("main", .star), ("list", .arrow [.star]), ("wrap", .arrow [.arrow [.star], .star])]

/-- The formal parameter in head position becomes the rule that it is bound to. -/
theorem derives_bracketedList :
    bracketedList.Derives [.var "main"] (["open", "a", "close"].map .var) := by
  have hmain : bracketedList.Unfolds (.var "main") [.app "wrap" [.var "list", .var "a"]] :=
    ⟨_, List.mem_of_getElem? (i := 0) rfl, _, List.mem_of_getElem? (i := 0) rfl, rfl, rfl, rfl⟩
  have hwrap : bracketedList.Unfolds (.app "wrap" [.var "list", .var "a"])
      [.var "open", .app "list" [.var "a"], .var "close"] :=
    ⟨_, List.mem_of_getElem? (i := 2) rfl, _, List.mem_of_getElem? (i := 0) rfl, rfl, rfl, rfl⟩
  have hlist : bracketedList.Unfolds (.app "list" [.var "a"]) [.var "a", .app "list" [.var "a"]] :=
    ⟨_, List.mem_of_getElem? (i := 1) rfl, _, List.mem_of_getElem? (i := 1) rfl, rfl, rfl, rfl⟩
  have hempty : bracketedList.Unfolds (.app "list" [.var "a"]) [] :=
    ⟨_, List.mem_of_getElem? (i := 1) rfl, _, List.mem_of_getElem? (i := 0) rfl, rfl, rfl, rfl⟩
  refine .head ⟨_, _, [], [], hmain, rfl, rfl⟩ (.head ⟨_, _, [], [], hwrap, rfl, rfl⟩ ?_)
  refine .head ⟨_, _, [.var "open"], [.var "close"], hlist, rfl, rfl⟩ ?_
  exact .single ⟨_, _, [.var "open", .var "a"], [.var "close"], hempty, rfl, rfl⟩

theorem expand_preserves_language_bracketedList :
    ∃ g x, bracketedList.inferSorts = .ok bracketedListSorts ∧
      (bracketedList.expand bracketedListSorts).result = .ok g ∧
      Expansion.expandAll ⟨bracketedList, bracketedListSorts, ∅⟩ = (.ok (), x) ∧
      x.instances.toList.map (·.closed.text) = ["main", "wrap(list,a)", "list(a)"] ∧
      g.language g.start = bracketedList.language (.var "main") ∧
      ["open", "a", "close"] ∈ g.language g.start ∧
      ∀ i inst, x.instances[i]? = some inst →
        g.nonterminals[i + 1]? = some inst.closed.text ∧
          g.language (i + 1) = bracketedList.language inst.closed := by
  let src : ExpansionSource := ⟨bracketedList, bracketedListSorts, ∅⟩
  have hsorts : bracketedList.inferSorts = .ok bracketedListSorts :=
    eq_ok_of_toOption_eq_some (by decide +kernel)
  have hbegun : Expansion.empty.instantiate src (.var "main") =
      (.ok 0, (Expansion.empty.instantiate src (.var "main")).2) :=
    Prod.ext (eq_ok_of_toOption_eq_some (by decide +kernel)) rfl
  have hall := Expansion.expandAll_eq_expandUpTo 3 rfl hbegun (by decide +kernel)
  let x := (Expansion.expandUpTo src 3 (Expansion.empty.instantiate src (.var "main")).2).2
  have hx : Expansion.expandAll src = (.ok (), x) :=
    hall.trans (Prod.ext (eq_ok_of_toOption_eq_some (by decide +kernel)) rfl)
  have hdefined : (Grammar.define (x.declarations src)).toOption.isSome = true := by
    decide +kernel
  obtain ⟨g, hg⟩ := Option.isSome_iff_exists.mp hdefined
  have hexpand : (bracketedList.expand bracketedListSorts).result = .ok g :=
    expand_eq_ok_iff.mpr ⟨∅, x, rfl, hx, eq_ok_of_toOption_eq_some hg⟩
  obtain ⟨levels, y, start, hlevels, hy, hstart, _, hlanguage, hinstances⟩ :=
    expand_preserves_language hsorts hexpand
  cases hlevels
  cases hstart
  cases hx.symm.trans hy
  have hword : ["open", "a", "close"] ∈ bracketedList.language (.var "main") :=
    ⟨by decide, derives_bracketedList⟩
  exact ⟨g, x, hsorts, hexpand, hx, by decide +kernel, hlanguage, hlanguage ▸ hword, hinstances⟩

end Template
end ParserGen
