import ParserGen.Template.Basic

/-!
# Sample templates

Templates that use a small library of parameterised rules.
-/

namespace ParserGen
namespace Samples

/-- A branch without a precedence of its own. -/
def branch (elements : List Parameter) : Branch := ⟨elements, none⟩

/-- A rule without formal parameters. -/
def plainRule (name : String) (branches : List (List Parameter)) : TemplateRule :=
  ⟨name, [], branches.map branch⟩

/-- Optional things, lists and things in brackets. -/
def libraryRules : List TemplateRule :=
  [⟨"option", ["X"], [branch [], branch [.var "X"]]⟩,
    ⟨"list", ["X"], [branch [], branch [.var "X", .app "list" [.var "X"]]]⟩,
    ⟨"nonempty_list", ["X"],
      [branch [.var "X"], branch [.var "X", .app "nonempty_list" [.var "X"]]]⟩,
    ⟨"separated_nonempty_list", ["S", "X"],
      [branch [.var "X"],
        branch
          [.var "X", .var "S", .app "separated_nonempty_list" [.var "S", .var "X"]]]⟩,
    ⟨"delimited", ["L", "X", "R"], [branch [.var "L", .var "X", .var "R"]]⟩]

/-- Nested lists of atoms. -/
def nestedLists : Template where
  tokens := ["LPAREN", "RPAREN", "ATOM", "QUOTE"]
  levels := []
  rules :=
    [plainRule "program" [[.app "list" [.var "sexp"]]],
      plainRule "sexp"
        [[.var "ATOM"], [.var "QUOTE", .var "sexp"],
          [.app "delimited" [.var "LPAREN", .app "list" [.var "sexp"], .var "RPAREN"]]]]
      ++ libraryRules
  start := some "program"

/-- Calls with arguments divided by commas, each with an optional block behind it. -/
def callStatements : Template where
  tokens := ["IDENT", "LPAREN", "RPAREN", "COMMA", "LBRACE", "RBRACE", "SEMI"]
  levels := []
  rules :=
    [plainRule "stmts" [[.app "nonempty_list" [.var "stmt"]]],
      plainRule "stmt" [[.var "call", .var "SEMI"]],
      plainRule "call"
        [[.var "IDENT",
          .app "delimited"
            [.var "LPAREN",
              .app "option" [.app "separated_nonempty_list" [.var "COMMA", .var "arg"]],
              .var "RPAREN"],
          .app "option" [.var "block"]]],
      plainRule "arg" [[.var "IDENT"], [.var "call"]],
      plainRule "block"
        [[.app "delimited" [.var "LBRACE", .app "list" [.var "stmt"], .var "RBRACE"]]]]
      ++ libraryRules
  start := none

/-- Arithmetic whose binary operators come from one parameterised rule. -/
def operators : Template where
  tokens := ["INT", "PLUS", "MINUS", "TIMES", "LPAREN", "RPAREN"]
  levels := [⟨.left, ["PLUS", "MINUS"]⟩, ⟨.left, ["TIMES"]⟩, ⟨.nonassoc, ["UMINUS"]⟩]
  rules :=
    [⟨"expr", [],
        [branch [.app "binary" [.var "PLUS"]], branch [.app "binary" [.var "MINUS"]],
          branch [.app "binary" [.var "TIMES"]],
          ⟨[.var "MINUS", .var "expr"], some "UMINUS"⟩,
          branch [.app "delimited" [.var "LPAREN", .var "expr", .var "RPAREN"]],
          branch [.var "INT"]]⟩,
      ⟨"binary", ["OP"], [branch [.var "expr", .var "OP", .var "expr"]]⟩]
      ++ libraryRules
  start := some "expr"

/-- The sample templates by their names. -/
def templates : List (String × Template) :=
  [("sexp", nestedLists), ("calls", callStatements), ("operators", operators)]

end Samples
end ParserGen
