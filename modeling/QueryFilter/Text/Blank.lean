/-
# Blank characters

The characters of the Unicode property White_Space, and the text left when
they are taken off both ends. Order specifications and counts are written by
people and by other programs, so blanks around them carry no meaning; blanks
inside them stay.

Key definitions: `Text.isBlank`, `Text.trim`.
-/

namespace QueryFilter
namespace Text

/-- The characters that carry the Unicode property White_Space. -/
def isBlank (c : Char) : Bool :=
  (0x09 ≤ c.toNat && c.toNat ≤ 0x0D) || c.toNat == 0x20 || c.toNat == 0x85 || c.toNat == 0xA0 ||
    c.toNat == 0x1680 || (0x2000 ≤ c.toNat && c.toNat ≤ 0x200A) || c.toNat == 0x2028 ||
    c.toNat == 0x2029 || c.toNat == 0x202F || c.toNat == 0x205F || c.toNat == 0x3000

/-- The characters left when the blanks at the end are taken off. -/
def trimEnd (cs : List Char) : List Char :=
  (cs.reverse.dropWhile isBlank).reverse

/-- The characters left when the blanks at both ends are taken off. -/
def trimChars (cs : List Char) : List Char :=
  trimEnd (cs.dropWhile isBlank)

/-- The text without the blanks at its two ends. -/
def trim (s : String) : String :=
  String.ofList (trimChars s.toList)

end Text
end QueryFilter
