/-!
# Readers

A reader takes something from the front of a list of characters and leaves the rest, or fails and
leaves nothing to go on with. Repetition ends by itself: it goes on only while characters are taken.

Readers are there for the documents that limits come from (`ScriptVM.Toml.Limits`), and nothing else
in a machine or its embedding reads text this way.
-/

namespace ScriptVM.Toml

variable {α β : Type}

/-- Takes something from the front of the input. -/
abbrev Reader := StateT (List Char) Option

namespace Reader

/-- A character of a class. -/
def one (p : Char → Bool) : Reader Char
  | c :: rest => if p c then some (c, rest) else none
  | [] => none

def char (c : Char) : Reader Unit := discard (one (· == c))

def chars : List Char → Reader Unit
  | [] => pure ()
  | c :: rest => do
    char c
    chars rest

/-- As many characters of a class as there are. -/
def run (p : Char → Bool) : Reader (List Char) := fun input =>
  some (input.takeWhile p, input.dropWhile p)

/-- So many characters of a class. -/
def exactly (p : Char → Bool) : Nat → Reader (List Char)
  | 0 => pure []
  | n + 1 => do
    let c ← one p
    return c :: (← exactly p n)

/-- Repeats a reader as long as it succeeds and takes something. -/
def manyFrom (r : Reader α) (input : List Char) : List α × List Char :=
  match r input with
  | some (a, rest) =>
    if rest.length < input.length then
      let (more, rest) := manyFrom r rest
      (a :: more, rest)
    else ([], input)
  | none => ([], input)
termination_by input.length

def many (r : Reader α) : Reader (List α) := fun input => some (manyFrom r input)

/-- Items with something between each two of them; none at all is allowed. -/
def separated (item : Reader α) (between : Reader β) : Reader (List α) :=
  (do
    let first ← item
    return first :: (← many (between *> item))) <|> pure []

def check (condition : Bool) : Reader Unit := if condition then pure () else failure

def endOfInput : Reader Unit
  | [] => some ((), [])
  | _ :: _ => none

/-- Whether a given character is next. -/
def isNext (c : Char) : Reader Bool := fun input => some (input.head? == some c, input)

/-! ## Between things -/

/-- Blanks within a line. -/
def isSpace (c : Char) : Bool := c == ' ' || c == '\t'

/-- Blanks within a line, if there are any. -/
def spaces : Reader Unit := discard (run isSpace)

def newline : Reader Unit := char '\n' <|> chars ['\r', '\n']

/-- Characters that text may hold as they are. -/
def isPlain (c : Char) : Bool := c == '\t' || (decide (' ' ≤ c) && c != '\x7f')

/-- A comment, which ends with its line. -/
def comment : Reader Unit := do
  char '#'
  discard (run isPlain)

/-- Blanks, line ends and comments, if there are any. -/
def gap : Reader Unit :=
  discard (many (discard (one isSpace) <|> newline <|> (comment *> newline)))

/-- What may stand between the content of a line and the next one. -/
def lineEnd : Reader Unit := do
  spaces
  discard (optional comment)
  newline <|> endOfInput

end Reader
end ScriptVM.Toml
