import OnePass.Text.GraphemeExtend
import OnePass.Text.Printable

/-!
# Quoted and padded text

Two small formats shared by messages, log lines and listings.

## Main definitions

* `Text.quoted` — a text in double quotes, with what would end it or not show in it
  escaped.
* `Text.padded` — a number written with at least four digits.
-/

namespace OnePass.Text

/-- A character by its number, in hexadecimal. -/
def numbered (c : Char) : String :=
  "\\u\x7b" ++ String.ofList (Nat.toDigits 16 c.toNat) ++ "\x7d"

/-- A character inside double quotes.  Quote and backslash are escaped, and so is what
would not show by itself: the common control characters by a letter, all others by
their number. -/
def quotedChar (c : Char) : String :=
  if c = '"' then "\\\""
  else if c = '\\' then "\\\\"
  else if c = '\n' then "\\n"
  else if c = '\r' then "\\r"
  else if c = '\t' then "\\t"
  else if c = '\x00' then "\\0"
  else if isPrintable c && !isExtender c then c.toString
  else numbered c

/-- A text in double quotes. -/
def quoted (text : String) : String :=
  "\"" ++ String.join (text.toList.map quotedChar) ++ "\""

/-- A number in decimal, with leading zeros up to four digits. -/
def padded (n : Nat) : String := String.ofList ((Nat.toDigits 10 n).leftpad 4 '0')

end OnePass.Text
