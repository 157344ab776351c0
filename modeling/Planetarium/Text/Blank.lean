/-!
# White space around a word

Words on the command line and in option lists may have white space around them.  White space is
meant in the wide sense here: the Unicode white space characters and the four information
separators U+001C to U+001F.
-/
namespace Planetarium.Text

/-- The code points that count as white space. -/
def blankCodes : List Nat :=
  [0x09, 0x0A, 0x0B, 0x0C, 0x0D, 0x1C, 0x1D, 0x1E, 0x1F, 0x20, 0x85, 0xA0, 0x1680, 0x2000, 0x2001,
   0x2002, 0x2003, 0x2004, 0x2005, 0x2006, 0x2007, 0x2008, 0x2009, 0x200A, 0x2028, 0x2029, 0x202F,
   0x205F, 0x3000]

/-- The character is white space in the wide sense. -/
def isBlank (c : Char) : Bool := blankCodes.contains c.toNat

/-- The text without the white space at its ends. -/
def strip (text : List Char) : List Char :=
  ((text.dropWhile isBlank).reverse.dropWhile isBlank).reverse

@[simp] theorem strip_nil : strip [] = [] := rfl

end Planetarium.Text
