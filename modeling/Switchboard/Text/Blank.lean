/-! White space, as the Unicode property `White_Space` has it.

Endpoint addresses are trimmed of it at both ends. The JSON reader knows four
blanks of its own (`Json.isBlank`). -/
namespace Switchboard.Text

/-- The characters with the property `White_Space`. -/
def isSpace (c : Char) : Bool :=
  let n := c.toNat
  (9 ≤ n && n ≤ 13) || n == 0x20 || n == 0x85 || n == 0xa0 || n == 0x1680 ||
    (0x2000 ≤ n && n ≤ 0x200a) || n == 0x2028 || n == 0x2029 || n == 0x202f || n == 0x205f ||
    n == 0x3000

/-- The text without the white space before its first and after its last other character. -/
def trimmed (s : List Char) : List Char :=
  ((s.dropWhile isSpace).reverse.dropWhile isSpace).reverse

end Switchboard.Text
