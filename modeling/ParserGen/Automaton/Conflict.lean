import ParserGen.Automaton.Item

/-!
# Actions and conflicts

The actions that compete on a terminal in a state are one shift at most and any number of
reductions.  Precedences settle a competition between a shift and reductions if they can; otherwise
a fixed convention does: a shift wins over reductions, and the earliest rule over the others.
-/

namespace ParserGen

/-- What an automaton does in a state when it sees a terminal. -/
inductive Action where
  | shift (next : Nat)
  | reduce (rule : Nat)
  | accept
  /-- Reject the terminal, although actions compete on it. -/
  | fail
deriving DecidableEq, Repr

inductive ConflictKind where
  | shiftReduce
  | reduceReduce
deriving DecidableEq, Repr

/-- Why precedences did not settle a conflict. -/
inductive ConflictReason where
  /-- A competing action has no precedence. -/
  | missingPrecedence
  /-- The precedences disagree about the shift. -/
  | inconsistentShiftResolution
  /-- More than one reduction remains. -/
  | multipleReductions
deriving DecidableEq, Repr

/-- How a conflict was settled. -/
inductive Resolution where
  | precedence
  | arbitrary (reason : ConflictReason)
deriving DecidableEq, Repr

/-- Competing actions on a terminal in a state, and the action that was chosen. -/
structure Conflict where
  state : Nat
  terminal : Nat
  kind : ConflictKind
  shift : Option Nat
  reduces : List Nat
  resolution : Resolution
  action : Action
deriving DecidableEq, Repr

namespace Conflict

/-- Whether precedences settled the conflict. -/
def isResolved (c : Conflict) : Bool := c.resolution == .precedence

/-- Whether at least two reductions compete, with or without a shift. -/
def isReduceReduce (c : Conflict) : Bool := c.reduces.length > 1

end Conflict

/-! ## Choosing an action -/

/-- Completing the augmented rule accepts the input. -/
def reduceOrAccept (rule : Nat) : Action :=
  if rule = augmentedRule then .accept else .reduce rule

/-- The reduction by the rule that was declared first. -/
def earliestReduction (g : Grammar) (reduces : List Nat) : Action :=
  ((reduces.minOn? g.orderOf).map reduceOrAccept).getD .fail

/-- Which of a shift and a reduction the precedences prefer. -/
inductive Preference where
  | shift
  | reduce
  | neither
deriving DecidableEq, Repr

/-- Compare the precedence of a terminal with that of a rule.  At the same priority the
associativity of the terminal decides: a left-associative operator is reduced first. -/
def Preference.between : Option Precedence → Option Precedence → Option Preference
  | some p, some q =>
      if q.priority < p.priority then some .shift
      else if p.priority < q.priority then some .reduce
      else
        match p.assoc with
        | .left => some .reduce
        | .right => some .shift
        | .nonassoc => some .neither
  | _, _ => none

/-- The common value of some preferences, of which the one before them, if any, was `agreed`; they
are looked at in turn and the first obstacle counts. -/
def Preference.agree (agreed : Option Preference) :
    List (Option Preference) → Except ConflictReason (Option Preference)
  | [] => .ok agreed
  | none :: _ => .error .missingPrecedence
  | some p :: rest =>
      match agreed with
      | none => agree (some p) rest
      | some q => if q = p then agree (some q) rest else .error .inconsistentShiftResolution

/-- Choose among a shift and at least one reduction. -/
def resolveShiftReduce (g : Grammar) (terminal next : Nat) (reduces : List Nat) :
    Action × Resolution :=
  let ofTerminal := g.precedenceOf terminal
  let preferences := reduces.map fun r =>
    Preference.between ofTerminal (g.rules[r]?.bind (·.precedence g))
  match Preference.agree none preferences, reduces with
  | .error reason, _ => (.shift next, .arbitrary reason)
  | .ok none, _ => (.shift next, .precedence)
  | .ok (some .shift), _ => (.shift next, .precedence)
  | .ok (some .neither), _ => (.fail, .precedence)
  | .ok (some .reduce), [r] => (reduceOrAccept r, .precedence)
  | .ok (some .reduce), _ => (earliestReduction g reduces, .arbitrary .multipleReductions)

/-- Choose the action on a terminal; the second component is there if actions compete. -/
def resolve (g : Grammar) (terminal : Nat) (shift : Option Nat) (reduces : List Nat) :
    Action × Option (ConflictKind × Resolution) :=
  match shift, reduces with
  | none, [] => (.fail, none)
  | none, [r] => (reduceOrAccept r, none)
  | none, _ =>
      (earliestReduction g reduces, some (.reduceReduce, .arbitrary .multipleReductions))
  | some next, [] => (.shift next, none)
  | some next, _ =>
      let (action, resolution) := resolveShiftReduce g terminal next reduces
      (action, some (.shiftReduce, resolution))

/-! ## The actions of a state -/

/-- The reductions that an item set allows on a terminal. -/
def reductionsOn (g : Grammar) (items : ItemSet) (terminal : Nat) : List Nat :=
  (items.toList.filter fun row => row.1.isComplete g && row.2.contains terminal).map (·.1.rule)

/-- The terminals on which a state can do something. -/
def competedTerminals (g : Grammar) (items : ItemSet) (transitions : List (Symbol × Nat)) : IdSet :=
  let shifted := IdSet.ofList (transitions.filterMap (·.1.terminal?))
  items.toList.foldl (fun all row => if row.1.isComplete g then all ∪ row.2 else all) shifted

/-- The action on a terminal, and the conflict if actions compete on it. -/
def actionOn (g : Grammar) (state : Nat) (items : ItemSet) (transitions : List (Symbol × Nat))
    (terminal : Nat) : Action × Option Conflict :=
  let shift := transitions.lookup (.terminal terminal)
  let reduces := reductionsOn g items terminal
  let (action, competition) := resolve g terminal shift reduces
  (action, competition.map fun (kind, resolution) =>
    { state, terminal, kind, shift, reduces, resolution, action })

/-- The actions of a state, ascending by terminal, each with its conflict if there is one. -/
def actionRows (g : Grammar) (state : Nat) (items : ItemSet) (transitions : List (Symbol × Nat)) :
    List (Nat × Action × Option Conflict) :=
  (competedTerminals g items transitions).toList.map fun t =>
    (t, actionOn g state items transitions t)

end ParserGen
