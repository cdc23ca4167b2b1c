import ParserGen.Automaton.Construction
import ParserGen.Template.ExpandedGrammar

/-!
# From a template to an automaton

A template is compiled in three stages: its sorts are inferred, its rules are expanded, and the
automaton of the expanded grammar is built.
-/

namespace ParserGen

/-- Why a template cannot be compiled. -/
inductive CompileError where
  | sort (cause : SortError)
  | expansion (cause : ExpansionError)
  | construction (cause : BuildError)
deriving Repr

def CompileError.message : CompileError → String
  | sort cause => "sort error: " ++ cause.message
  | expansion cause => "expansion error: " ++ cause.message
  | construction cause => "construction error: " ++ cause.message

namespace Template

/-- Infer the sort of every rule and report it. -/
def checkSorts (t : Template) : Traced SortError RuleSorts :=
  match t.inferSorts with
  | .error e => ⟨[], .error e⟩
  | .ok sorts => ⟨sorts.map fun (name, sort) => .inferredSort name sort, .ok sorts⟩

/-- Infer the sorts of a template and expand it. -/
def toGrammar (t : Template) : Traced CompileError Grammar :=
  (t.checkSorts.mapError .sort).andThen fun sorts => (t.expand sorts).mapError .expansion

/-- Compile a template to its expanded grammar and the automaton of that grammar. -/
def compile (t : Template) (mode : MergeMode) : Traced CompileError (Grammar × Automaton) :=
  t.toGrammar.andThen fun g =>
    ((Automaton.generate mode g).mapError .construction).map fun a => (g, a)

end Template
end ParserGen
