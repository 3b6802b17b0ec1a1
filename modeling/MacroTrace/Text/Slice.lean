import MacroTrace.Text.Range
/-!
Byte slices of text. Ranges count UTF-8 bytes; a slice keeps the characters that start inside the
range, which is exact when the range ends fall on character boundaries, as the ends of tokens do.
-/
namespace MacroTrace

def charsWithin : List Char → Nat → Nat → Nat → List Char
  | [], _, _, _ => []
  | c :: cs, pos, a, b =>
    let rest := charsWithin cs (pos + c.utf8Size) a b
    if a ≤ pos && pos < b then c :: rest else rest

/-- The text in a byte range. -/
def sliceText (s : String) (r : TextRange) : String :=
  String.ofList (charsWithin s.toList 0 r.start r.stop)

def sliceFrom (s : String) (a : Nat) : String :=
  String.ofList (charsWithin s.toList 0 a s.utf8ByteSize)

def bytesOf (cs : List Char) : Nat := cs.foldr (fun c n => c.utf8Size + n) 0

end MacroTrace
