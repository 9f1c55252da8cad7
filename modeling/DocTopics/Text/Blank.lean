/-!
# White space

`isBlank` is the class of characters that separate words, that trimming removes and that make a
line blank: the code points with the Unicode property `White_Space`. Zero-width spaces, the byte
order mark and the information separators `U+001C`–`U+001F` are not among them.
-/

namespace DocTopics

/-- A character with the Unicode property `White_Space`. -/
def isBlank (c : Char) : Bool :=
  let n := c.toNat
  (0x9 ≤ n && n ≤ 0xD) || n == 0x20 || n == 0x85 || n == 0xA0 || n == 0x1680 ||
    (0x2000 ≤ n && n ≤ 0x200A) || n == 0x2028 || n == 0x2029 || n == 0x202F || n == 0x205F ||
    n == 0x3000

end DocTopics
