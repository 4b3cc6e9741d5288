import Appearance.Text.Mark

/-!
# Quoted text

`quoted` writes a text between double quotes so that every character shows: quotes, backslashes
and line ends are escaped, and what has no visible form of its own is written by its code point.

Quoted texts occur in messages only, where a node of a document is shown in the form of its kind.
The escapes are those of the language in which the messages are commonly read: a letter for the
usual controls, a code point in braces for everything else that would not show, marks that combine
with the character before them included.
-/

namespace Appearance.Text

/-- The hexadecimal code point of a character in braces. -/
def codePointEscape (c : Char) : List Char :=
  '\\' :: 'u' :: '\x7b' :: Nat.toDigits 16 c.toNat ++ ['\x7d']

/-- How a character is written between quotes. -/
def quotedChar (c : Char) : List Char :=
  if c = '"' then ['\\', '"']
  else if c = '\\' then ['\\', '\\']
  else if c = '\n' then ['\\', 'n']
  else if c = '\r' then ['\\', 'r']
  else if c = '\t' then ['\\', 't']
  else if c.toNat = 0 then ['\\', '0']
  else if isExtender c || !isVisible c then codePointEscape c
  else [c]

/-- The text between double quotes. -/
def quoted (s : String) : String :=
  String.ofList ('"' :: s.toList.flatMap quotedChar ++ ['"'])

end Appearance.Text
