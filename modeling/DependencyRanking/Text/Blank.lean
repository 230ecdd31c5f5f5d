/-!
# Blank text

The blank characters of Unicode, with the line and group separators of ASCII among them. A text is
blank if it has no other character.
-/
namespace DependencyRanking.Text

def isBlankChar (c : Char) : Bool :=
  let n := c.toNat
  (9 ≤ n && n ≤ 13) || (28 ≤ n && n ≤ 32) || n == 0x85 || n == 0xA0 || n == 0x1680
    || (0x2000 ≤ n && n ≤ 0x200A) || n == 0x2028 || n == 0x2029 || n == 0x202F || n == 0x205F
    || n == 0x3000

def isBlank (s : String) : Bool := s.toList.all isBlankChar

end DependencyRanking.Text
