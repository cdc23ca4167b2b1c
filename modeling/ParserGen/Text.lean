/-!
# Text

What the declarations and printers of grammars and automata need to know of text: which characters
separate words and so cannot stand inside a symbol name, and how numbers and lines are laid out.
-/

namespace ParserGen
namespace Text

/-! ## Blank characters -/

/-- The ranges of code points with the Unicode property `White_Space`, both ends included. -/
def blankRanges : List (Nat × Nat) :=
  [(0x09, 0x0D), (0x20, 0x20), (0x85, 0x85), (0xA0, 0xA0), (0x1680, 0x1680),
    (0x2000, 0x200A), (0x2028, 0x2029), (0x202F, 0x202F), (0x205F, 0x205F),
    (0x3000, 0x3000)]

/-- A character is blank if its code point lies in one of `blankRanges`. -/
def isBlank (c : Char) : Bool :=
  blankRanges.any fun range => range.1 ≤ c.toNat && c.toNat ≤ range.2

/-! ## Layout -/

/-- Write `text` in a column of at least `width` characters, filling up on the left. -/
def padLeft (width : Nat) (fill : Char) (text : String) : String :=
  String.ofList (List.replicate (width - text.length) fill) ++ text

/-- A state number has at least two digits. -/
def twoDigits (n : Nat) : String :=
  padLeft 2 '0' (toString n)

/-- Terminate each line of `lines` by a line feed. -/
def unlines (lines : List String) : String :=
  String.join (lines.map (· ++ "\n"))

end Text
end ParserGen
