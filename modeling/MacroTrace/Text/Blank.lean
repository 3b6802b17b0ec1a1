/-!
White space in the Unicode sense: the characters with the `White_Space` property, and trimming
by them. This is wider than ASCII white space: it takes in the next-line control, the no-break
spaces, the ogham space mark, the typographic spaces, the line and paragraph separators and the
ideographic space.
-/
namespace MacroTrace

/-- Whether a character has the Unicode `White_Space` property. -/
def isWhiteSpace (c : Char) : Bool :=
  let n := c.toNat
  (0x9 ≤ n && n ≤ 0xD) || n == 0x20 || n == 0x85 || n == 0xA0 || n == 0x1680 ||
    (0x2000 ≤ n && n ≤ 0x200A) || n == 0x2028 || n == 0x2029 || n == 0x202F ||
    n == 0x205F || n == 0x3000

def trimStartChars (cs : List Char) : List Char := cs.dropWhile isWhiteSpace

def trimChars (cs : List Char) : List Char :=
  (trimStartChars (trimStartChars cs).reverse).reverse

end MacroTrace
