/-
  Blank text: the characters with the White_Space property, and the texts made
  of nothing else.
-/
namespace SourceIndex.Text

/-- The white-space characters, as closed ranges in increasing order. -/
def blankRanges : List (Nat × Nat) :=
  [(0x9, 0xD), (0x20, 0x20), (0x85, 0x85), (0xA0, 0xA0), (0x1680, 0x1680), (0x2000, 0x200A),
   (0x2028, 0x2029), (0x202F, 0x202F), (0x205F, 0x205F), (0x3000, 0x3000)]

/-- Is the character white space? -/
def isBlankChar (c : Char) : Bool :=
  blankRanges.any fun range => range.1 ≤ c.toNat && c.toNat ≤ range.2

/-- Does the text hold white space only?  The empty text does. -/
def isBlank (text : String) : Bool :=
  text.toList.all isBlankChar

/-- The text without the white space at both ends. -/
def trimmed (text : String) : String :=
  String.ofList ((text.toList.dropWhile isBlankChar).reverse.dropWhile isBlankChar).reverse

end SourceIndex.Text
