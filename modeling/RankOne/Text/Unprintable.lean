import RankOne.Text.NonspacingMark

/-!
# Characters without a picture of their own

A name that is shown in a message may hold characters that a reader could not see or tell apart.
These are written by number: controls, separators other than the blank, format characters, private
use, code points that are set aside and stand for no character, and marks without room of their own.
-/

namespace RankOne.Text

/-- The ranges of code points that are controls, separators, format characters or private use, in
order, both ends included. The blank is a separator that a reader can see and is left out. -/
def invisibleRanges : List (Nat × Nat) :=
  [(0x0000, 0x001F), (0x007F, 0x00A0), (0x00AD, 0x00AD), (0x0600, 0x0605), (0x061C, 0x061C),
   (0x06DD, 0x06DD), (0x070F, 0x070F), (0x0890, 0x0891), (0x08E2, 0x08E2), (0x1680, 0x1680),
   (0x180E, 0x180E), (0x2000, 0x200F), (0x2028, 0x202F), (0x205F, 0x2064), (0x2066, 0x206F),
   (0x3000, 0x3000), (0xE000, 0xF8FF), (0xFEFF, 0xFEFF), (0xFFF9, 0xFFFB), (0x110BD, 0x110BD),
   (0x110CD, 0x110CD), (0x13430, 0x1343F), (0x1BCA0, 0x1BCA3), (0x1D173, 0x1D17A),
   (0xE0001, 0xE0001), (0xE0020, 0xE007F), (0xF0000, 0xFFFFD), (0x100000, 0x10FFFD)]

/-- Whether a code point is set aside: the last two of each plane and a block of thirty-two. -/
def isNoncharacter (c : Char) : Bool :=
  (0xFDD0 ≤ c.toNat && c.toNat ≤ 0xFDEF) || 0xFFFE ≤ c.toNat % 0x10000

/-- Whether a character has no picture of its own. -/
def isUnprintable (c : Char) : Bool :=
  (invisibleRanges.any fun range => range.1 ≤ c.toNat && c.toNat ≤ range.2) || isNoncharacter c
    || isNonspacingMark c

end RankOne.Text
