import Resumption.Text.Hexadecimal
import Resumption.Text.Invisible

/-!
# Quoted text

The form in which a string stands inside the description of a value: between double quotes, with
`\0 \t \r \n \" \\` for the characters that have a short escape, `\u{…}` with lowercase hex digits
for every other character that has no visible form, and all else as it is.
-/

namespace Resumption.Text.Quoted

/-- The characters that stand for one character of the text. -/
def escape (c : Char) : List Char :=
  if c = '\x00' then ['\\', '0']
  else if c = '\t' then ['\\', 't']
  else if c = '\r' then ['\\', 'r']
  else if c = '\n' then ['\\', 'n']
  else if c = '"' then ['\\', '"']
  else if c = '\\' then ['\\', '\\']
  else if c.toNat < 0x7f && 0x20 ≤ c.toNat then [c]
  else if Invisible.contains c then
    ['\\', 'u', '\x7b'] ++ Hexadecimal.digits c.toNat ++ ['\x7d']
  else [c]

/-- The text between double quotes, every character escaped as needed. -/
def quote (s : String) : String :=
  String.ofList ('"' :: s.toList.flatMap escape ++ ['"'])

end Resumption.Text.Quoted
