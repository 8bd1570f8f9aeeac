import ScriptVM.Toml.Reader

/-!
# Strings and keys

Strings stand between double quotes, where escapes are understood, or between single quotes, where
they are not; three quotes of a kind allow for several lines. A key is a row of names with points
between them, and a name is bare or a string on one line.

The names of the limits are looked up among the keys. The strings matter only for where they end:
a document may hold other entries beside the limits, and has to be read past them.
-/

namespace ScriptVM.Toml

open Reader

/-! ## Escapes -/

def hexValue (c : Char) : Nat :=
  if c.isDigit then c.toNat - '0'.toNat
  else if 'a' ≤ c then c.toNat - 'a'.toNat + 10
  else c.toNat - 'A'.toNat + 10

def isHexDigit (c : Char) : Bool :=
  c.isDigit || (decide ('a' ≤ c) && decide (c ≤ 'f')) || (decide ('A' ≤ c) && decide (c ≤ 'F'))

/-- The character with so many hexadecimal digits for its code point. -/
def codePoint (digits : Nat) : Reader Char := do
  let n := (← exactly isHexDigit digits).foldl (fun n c => n * 16 + hexValue c) 0
  if n.isValidChar then return Char.ofNat n else failure

/-- The character that an escape stands for, after its backslash. -/
def escape : Reader Char := do
  match ← one fun _ => true with
  | 'b' => return '\x08'
  | 't' => return '\t'
  | 'n' => return '\n'
  | 'f' => return '\x0c'
  | 'r' => return '\r'
  | '"' => return '"'
  | '\\' => return '\\'
  | 'u' => codePoint 4
  | 'U' => codePoint 8
  | _ => failure

/-! ## Strings on one line -/

/-- A string between double quotes. -/
def basicString : Reader String := do
  char '"'
  let cs ← many
    ((char '\\' *> escape) <|> one fun c => isPlain c && c != '"' && c != '\\')
  char '"'
  return String.ofList cs

/-- A string between single quotes. -/
def literalString : Reader String := do
  char '\''
  let cs ← run fun c => isPlain c && c != '\''
  char '\''
  return String.ofList cs

/-! ## Strings on several lines -/

/-- Quotes inside a string that three of them end: one or two, with no third one after them. -/
def innerQuotes (quote : Char) : Reader (List Char) := do
  let quotes ← run (· == quote)
  check (quotes.length == 1 || quotes.length == 2)
  return quotes

/-- The quotes at the end of such a string: three, and up to two before them that belong to it. -/
def closingQuotes (quote : Char) : Reader (List Char) := do
  let quotes ← run (· == quote)
  check (3 ≤ quotes.length && quotes.length ≤ 5)
  return quotes.drop 3

/-- The end of a line inside a string. -/
def innerNewline : Reader (List Char) := newline *> pure ['\n']

/-- A backslash at the end of a line takes the line end and the blanks after it out. -/
def continuation : Reader (List Char) := do
  char '\\'
  spaces
  newline
  discard (many (discard (one isSpace) <|> newline))
  return []

/-- A string between three double quotes. -/
def basicLines : Reader String := do
  chars ['"', '"', '"']
  discard (optional newline)
  let parts ← many
    (continuation <|> (List.singleton <$> (char '\\' *> escape)) <|>
      (List.singleton <$> one fun c => isPlain c && c != '"' && c != '\\') <|>
      innerNewline <|> innerQuotes '"')
  return String.ofList (parts.flatten ++ (← closingQuotes '"'))

def literalLines : Reader String := do
  chars ['\'', '\'', '\'']
  discard (optional newline)
  let parts ← many
    ((List.singleton <$> one fun c => isPlain c && c != '\'') <|>
      innerNewline <|> innerQuotes '\'')
  return String.ofList (parts.flatten ++ (← closingQuotes '\''))

def string : Reader String := basicLines <|> basicString <|> literalLines <|> literalString

/-! ## Keys -/

/-- The characters of bare names. -/
def isBare (c : Char) : Bool := c.isAlphanum || c == '_' || c == '-'

def bareName : Reader String := do
  let cs ← run isBare
  check !cs.isEmpty
  return String.ofList cs

def name : Reader String := basicString <|> literalString <|> bareName

/-- How deep keys and values may be nested. -/
def depthLimit : Nat := 80

/-- A row of names with points between them. -/
def key : Reader (List String) := do
  let names ← separated (spaces *> name <* spaces) (char '.')
  check (!names.isEmpty && names.length < depthLimit)
  return names

end ScriptVM.Toml
