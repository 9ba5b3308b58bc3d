/-!
# White space of texts

Texts are trimmed of all characters with the Unicode property `White_Space`.
-/

namespace FlowFacts

/-- The characters with the Unicode property `White_Space`. -/
def isWhiteSpace (c : Char) : Bool :=
  let n := c.toNat
  (9 ≤ n && n ≤ 13) || n == 0x20 || n == 0x85 || n == 0xA0 || n == 0x1680
    || (0x2000 ≤ n && n ≤ 0x200A) || n == 0x2028 || n == 0x2029 || n == 0x202F || n == 0x205F
    || n == 0x3000

/-- The text `s` without the white space at its end. -/
def trimEnd (s : String) : String :=
  String.ofList (s.toList.reverse.dropWhile isWhiteSpace).reverse

/-- The text `s` without the white space around it. -/
def trim (s : String) : String :=
  trimEnd (String.ofList (s.toList.dropWhile isWhiteSpace))

end FlowFacts
