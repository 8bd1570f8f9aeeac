import ScriptVM.Text.Printable
import ScriptVM.Text.Extending

/-!
# Quoted text

The quoted form of a text stands between double quotes. A double quote and a backslash inside it are
escaped by a backslash; NUL, tab, carriage return and line feed have short names; every other
character that is not printable, or that would attach to the quote or character before it, is
written by its code point.
-/

namespace ScriptVM.Text

/-- The characters that escape a code point: its lower-case hexadecimal digits between braces. -/
def codeEscape (c : Char) : List Char :=
  '\\' :: 'u' :: '\x7b' :: (Nat.toDigits 16 c.toNat ++ ['\x7d'])

/-- How a character stands inside quotes. -/
def quoteChar (c : Char) : List Char :=
  if c = '\x00' then ['\\', '0']
  else if c = '\t' then ['\\', 't']
  else if c = '\r' then ['\\', 'r']
  else if c = '\n' then ['\\', 'n']
  else if c = '"' then ['\\', '"']
  else if c = '\\' then ['\\', '\\']
  else if isExtending c then codeEscape c
  else if isPrintable c then [c]
  else codeEscape c

def quoted (s : String) : String :=
  String.ofList ('"' :: (s.toList.flatMap quoteChar ++ ['"']))

end ScriptVM.Text
