import ParserGen.Grammar.Sketch

/-!
# Sample grammars

Grammars that show how the merge modes and precedences behave.
-/

namespace ParserGen
namespace Samples

/-- Terminals without precedences. -/
def bare (names : List String) : List (String × Option Precedence) :=
  names.map fun name => (name, none)

/-- Rules with the same left-hand side and no precedence. -/
def alternatives (left : String) (rights : List (List String)) : List SketchRule :=
  rights.map fun right => ⟨left, right, none⟩

/-- Equations between sums. -/
def equation : Sketch where
  terminals := bare ["EQUAL", "PLUS", "ID", "NUM"]
  nonterminals := ["A", "E", "T"]
  start := some "A"
  rules :=
    alternatives "A" [["E", "EQUAL", "E"], ["ID"]]
      ++ alternatives "E" [["E", "PLUS", "T"], ["T"]]
      ++ alternatives "T" [["NUM"], ["ID"]]

/-- Arithmetic with one nonterminal for each priority. -/
def arithmetic : Sketch where
  terminals := bare ["LPAREN", "RPAREN", "PLUS", "MINUS", "STAR", "SLASH", "NUM"]
  nonterminals := ["EXPR", "FACTOR", "TERM"]
  start := some "EXPR"
  rules :=
    alternatives "EXPR" [["EXPR", "PLUS", "FACTOR"], ["EXPR", "MINUS", "FACTOR"], ["FACTOR"]]
      ++ alternatives "FACTOR" [["FACTOR", "STAR", "TERM"], ["FACTOR", "SLASH", "TERM"], ["TERM"]]
      ++ alternatives "TERM" [["NUM"], ["LPAREN", "EXPR", "RPAREN"]]

/-- Sums of products. -/
def sumOfProducts : Sketch where
  terminals := bare ["PLUS", "STAR", "A"]
  nonterminals := ["E", "T"]
  start := some "E"
  rules :=
    alternatives "E" [["E", "PLUS", "T"], ["T"]]
      ++ alternatives "T" [["T", "STAR", "A"], ["A"]]

/-- A grammar with a conflict-free automaton, but not once all states of one core are merged. -/
def declaration : Sketch where
  terminals := bare ["COMMA", "COLON", "ID"]
  nonterminals := ["DEF", "PARAM_SPEC", "RETURN_SPEC", "TYPE", "NAME", "NAME_LIST"]
  start := none
  rules :=
    alternatives "DEF" [["PARAM_SPEC", "RETURN_SPEC", "COMMA"]]
      ++ alternatives "PARAM_SPEC" [["TYPE"], ["NAME_LIST", "COLON", "TYPE"]]
      ++ alternatives "RETURN_SPEC" [["TYPE"], ["NAME", "COLON", "TYPE"]]
      ++ alternatives "TYPE" [["ID"]]
      ++ alternatives "NAME" [["ID"]]
      ++ alternatives "NAME_LIST" [["NAME"], ["NAME", "COMMA", "NAME_LIST"]]

/-- Sums with parentheses. -/
def parenthesised : Sketch where
  terminals := bare ["PLUS", "LPAREN", "RPAREN", "NUM"]
  nonterminals := ["E", "T"]
  start := none
  rules :=
    alternatives "E" [["E", "PLUS", "T"], ["T"]]
      ++ alternatives "T" [["LPAREN", "E", "RPAREN"], ["NUM"]]

/-- Two states of one core that must not be merged, or their reductions conflict. -/
def weaklyIncompatible : Sketch where
  terminals := bare ["a", "b", "c", "d", "e"]
  nonterminals := ["S", "A", "B"]
  start := none
  rules :=
    alternatives "S" [["a", "A", "d"], ["b", "B", "d"], ["a", "B", "e"], ["b", "A", "e"]]
      ++ alternatives "A" [["c"]]
      ++ alternatives "B" [["c"]]

/-- Two states of one core, of which one has a conflict on `d` by itself.  Merging them would add a
conflict on `a`. -/
def alreadyConflicting : Sketch where
  terminals := bare ["a", "b", "c", "d", "p", "q"]
  nonterminals := ["S", "X", "Y"]
  start := none
  rules :=
    alternatives "S"
        [["p", "X", "a"], ["p", "X", "d"], ["p", "Y", "d"], ["q", "X", "b"], ["q", "Y", "a"]]
      ++ alternatives "X" [["c"]]
      ++ alternatives "Y" [["c"]]

/-- Ambiguous arithmetic that precedences make unambiguous. -/
def operatorPrecedence : Sketch where
  terminals :=
    [("PLUS", some ⟨0, .left⟩), ("MINUS", some ⟨0, .left⟩), ("STAR", some ⟨1, .left⟩),
        ("SLASH", some ⟨1, .left⟩), ("CARET", some ⟨2, .right⟩)]
      ++ bare ["LPAREN", "RPAREN", "NUM"]
  nonterminals := ["EXPR"]
  start := none
  rules :=
    alternatives "EXPR"
        (["PLUS", "MINUS", "STAR", "SLASH", "CARET"].map fun op => ["EXPR", op, "EXPR"])
      ++ [⟨"EXPR", ["MINUS", "EXPR"], some ⟨3, .nonassoc⟩⟩]
      ++ alternatives "EXPR" [["LPAREN", "EXPR", "RPAREN"], ["NUM"]]

/-- A functional language with binary operators on several levels. -/
def functional : Sketch where
  terminals :=
    bare ["LPAREN", "RPAREN", "TRUE", "FALSE", "INTEGER", "FLOAT", "IDENT", "NOT", "PLUS",
      "PLUS_DOT", "MINUS", "MINUS_DOT", "STAR_DOT", "SLASH_DOT", "EQUAL", "LESS_GREATER", "LESS",
      "GREATER", "LESS_EQUAL", "GREATER_EQUAL", "LESS_MINUS", "COMMA", "SEMICOLON", "IF", "THEN",
      "ELSE", "LET", "REC", "IN", "ARRAY_MAKE", "DOT"]
  nonterminals :=
    ["EXPR", "SIMPLE_EXP", "APP_EXP", "NEG_EXP", "MULT_EXP", "ADD_EXP", "REL_EXP", "TUPLE_EXP",
      "TUPLE_EXP_REST", "PUT_EXP", "IF_EXP", "LET_EXP", "FUNDEF", "FORMAL_ARGS", "ACTUAL_ARGS",
      "PAT"]
  start := some "EXPR"
  rules :=
    alternatives "SIMPLE_EXP"
        [["LPAREN", "EXPR", "RPAREN"], ["LPAREN", "RPAREN"], ["TRUE"], ["FALSE"], ["INTEGER"],
          ["FLOAT"], ["IDENT"], ["SIMPLE_EXP", "DOT", "LPAREN", "EXPR", "RPAREN"]]
      ++ alternatives "APP_EXP"
        [["SIMPLE_EXP"], ["SIMPLE_EXP", "ACTUAL_ARGS"], ["ARRAY_MAKE", "SIMPLE_EXP", "SIMPLE_EXP"],
          ["NOT", "APP_EXP"]]
      ++ alternatives "NEG_EXP" [["APP_EXP"], ["MINUS", "NEG_EXP"], ["MINUS_DOT", "NEG_EXP"]]
      ++ alternatives "MULT_EXP" (["NEG_EXP"] ::
        (["STAR_DOT", "SLASH_DOT"].map fun op => ["MULT_EXP", op, "NEG_EXP"]))
      ++ alternatives "ADD_EXP" (["MULT_EXP"] ::
        (["PLUS", "MINUS", "PLUS_DOT", "MINUS_DOT"].map fun op => ["ADD_EXP", op, "MULT_EXP"]))
      ++ alternatives "REL_EXP" (["ADD_EXP"] ::
        (["EQUAL", "LESS_GREATER", "LESS", "GREATER", "LESS_EQUAL", "GREATER_EQUAL"].map
          fun op => ["REL_EXP", op, "ADD_EXP"]))
      ++ alternatives "TUPLE_EXP" [["REL_EXP"], ["REL_EXP", "COMMA", "TUPLE_EXP_REST"]]
      ++ alternatives "TUPLE_EXP_REST" [["REL_EXP"], ["REL_EXP", "COMMA", "TUPLE_EXP_REST"]]
      ++ alternatives "PUT_EXP"
        [["TUPLE_EXP"],
          ["SIMPLE_EXP", "DOT", "LPAREN", "EXPR", "RPAREN", "LESS_MINUS", "EXPR"]]
      ++ alternatives "IF_EXP"
        [["PUT_EXP"], ["IF", "EXPR", "THEN", "EXPR", "ELSE", "EXPR"]]
      ++ alternatives "LET_EXP"
        [["LET", "IDENT", "EQUAL", "EXPR", "IN", "EXPR"],
          ["LET", "REC", "FUNDEF", "IN", "EXPR"],
          ["LET", "LPAREN", "PAT", "RPAREN", "EQUAL", "EXPR", "IN", "EXPR"]]
      ++ alternatives "FUNDEF" [["IDENT", "FORMAL_ARGS", "EQUAL", "EXPR"]]
      ++ alternatives "FORMAL_ARGS" [["IDENT", "FORMAL_ARGS"], ["IDENT"]]
      ++ alternatives "ACTUAL_ARGS" [["ACTUAL_ARGS", "SIMPLE_EXP"], ["SIMPLE_EXP"]]
      ++ alternatives "PAT" [["PAT", "COMMA", "IDENT"], ["IDENT", "COMMA", "IDENT"]]
      ++ alternatives "EXPR" [["IF_EXP"], ["IF_EXP", "SEMICOLON", "EXPR"], ["LET_EXP"]]

/-- The sample grammars by their names. -/
def grammars : List (String × Sketch) :=
  [("g_simple1", equation), ("g_simple2", arithmetic), ("g1", sumOfProducts), ("g2", declaration),
    ("g4", parenthesised), ("pager_weak", weaklyIncompatible),
    ("pager_conflicted", alreadyConflicting), ("arithmetic_prec", operatorPrecedence),
    ("min_caml", functional)]

end Samples
end ParserGen
