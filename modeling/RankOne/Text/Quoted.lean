import RankOne.Text.Unprintable

/-!
# Quoted names

A name inside a message stands between double quotes. Quotes and backslashes are escaped, the usual
controls have short escapes, and every other character without a picture of its own is written by
its number. An apostrophe is left alone.
-/

namespace RankOne.Text

/-- How one character is written between double quotes. -/
def escape (c : Char) : String :=
  match c with
  | '\x22' => "\\\""
  | '\\' => "\\\\"
  | '\t' => "\\t"
  | '\n' => "\\n"
  | '\r' => "\\r"
  | '\x00' => "\\0"
  | c =>
    if isUnprintable c then
      "\\u\x7b" ++ String.ofList (Nat.toDigits 16 c.toNat) ++ "\x7d"
    else
      String.singleton c

/-- A name between double quotes. -/
def quote (name : String) : String :=
  "\"" ++ String.join (name.toList.map escape) ++ "\""

end RankOne.Text
