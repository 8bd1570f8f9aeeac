import ScriptVM.Toml.Number

/-!
# Documents

A document is a table: names with values, some of which are tables again. Its lines are entries of
the table at hand and headers, which turn to another table. A table can be named by a header or by a
key with points, and grow in several places, but no entry may be given twice and no table be defined
twice; a table or array written as a value is complete as it stands.

Documents are read for the limits of a machine only: `Limits.ofToml` looks three names up in the
outermost table. Everything else of the format is read so that the documents which are refused are
the right ones.
-/

namespace ScriptVM.Toml

open Reader

/-! ## Contents -/

/-- How a table came about. -/
inductive Origin where
  /-- It lies on the way to another table that has a header. -/
  | implied
  /-- It lies on the way of a key with points. -/
  | dotted
  /-- It has a header of its own. -/
  | defined
  deriving DecidableEq, Repr

/-- What a name stands for. -/
inductive Item where
  | string (s : String)
  | integer (n : Int64)
  | float (x : Binary64)
  | boolean (b : Bool)
  | dateTime (text : String)
  /-- An array written as a value. -/
  | array (items : List Item)
  /-- A table written as a value. -/
  | inlineTable (entries : List (String × Item))
  /-- A table that may still grow. -/
  | table (origin : Origin) (entries : List (String × Item))
  /-- Tables that have one header in common, of which the last may still grow. -/
  | tables (items : List (List (String × Item)))

/-- The entries of a table, in the order in which they came. -/
abbrev Entries := List (String × Item)

namespace Entries

def has (es : Entries) (k : String) : Bool := es.any (·.1 == k)

/-- Puts an item in the place of the one with its name, or after all others. -/
def put (es : Entries) (k : String) (item : Item) : Entries :=
  if es.has k then es.map fun e => if e.1 == k then (k, item) else e else es ++ [(k, item)]

/-! ## Entries by key -/

/-- Adds an entry of the table at hand. Tables on the way of a key with points are made as needed;
the last of them must have come about in this way. -/
def insert (es : Entries) (path : List String) (k : String) (item : Item) : Option Entries :=
  match path with
  | [] => if es.has k then none else some (es ++ [(k, item)])
  | p :: rest =>
    match es.lookup p with
    | none => (insert [] rest k item).map fun sub => es ++ [(p, .table .dotted sub)]
    | some (.table .dotted sub) =>
      (insert sub rest k item).map fun sub => es.put p (.table .dotted sub)
    -- A key with points does not add to a table that belongs to headers, only to ones below it.
    | some (.table .implied sub) =>
      if rest.isEmpty then none
      else (insert sub rest k item).map fun sub => es.put p (.table .implied sub)
    | some (.tables items) =>
      match rest.isEmpty, items.getLast? with
      | false, some sub =>
        (insert sub rest k item).map fun sub => es.put p (.tables (items.dropLast ++ [sub]))
      | _, _ => none
    | some _ => none

def insertKey (es : Entries) (path : List String) (item : Item) : Option Entries :=
  match path.getLast? with
  | some k => es.insert path.dropLast k item
  | none => none

def insertAll (es : Entries) : List (List String × Item) → Option Entries
  | [] => some es
  | (path, item) :: rest => (es.insertKey path item).bind fun es => es.insertAll rest

/-! ## Tables by header -/

/-- Changes the table that a header's names but the last one lead to. Tables on the way are made as
needed; of tables with one header the last one is meant. -/
def within (es : Entries) (path : List String) (change : Entries → Option Entries) :
    Option Entries :=
  match path with
  | [] => change es
  | p :: rest =>
    match es.lookup p with
    | none => (within [] rest change).map fun sub => es ++ [(p, .table .implied sub)]
    | some (.table origin sub) =>
      (within sub rest change).map fun sub => es.put p (.table origin sub)
    | some (.tables items) =>
      match items.getLast? with
      | some sub =>
        (within sub rest change).map fun sub => es.put p (.tables (items.dropLast ++ [sub]))
      | none => none
    | some _ => none

/-- Defines a table with the entries below its header. It may have been implied before. -/
def define (k : String) (body : List (List String × Item)) (es : Entries) : Option Entries :=
  match es.lookup k with
  | none => (insertAll [] body).map fun sub => es ++ [(k, .table .defined sub)]
  | some (.table .implied sub) =>
    (insertAll sub body).map fun sub => es.put k (.table .defined sub)
  | some _ => none

/-- Adds a table with the entries below its header to the others of that header. -/
def append (k : String) (body : List (List String × Item)) (es : Entries) : Option Entries :=
  match es.lookup k with
  | none => (insertAll [] body).map fun sub => es ++ [(k, .tables [sub])]
  | some (.tables items) =>
    (insertAll [] body).map fun sub => es.put k (.tables (items ++ [sub]))
  | some _ => none

end Entries

/-! ## Values -/

/-- What stands between a key and its value. -/
def equals : Reader Unit := do
  char '='
  spaces

/-- A value that is not made of others. -/
def scalar : Reader Item :=
  (.string <$> string) <|> (.dateTime <$> dateTime) <|> (.float <$> float) <|>
    (.integer <$> integer) <|> (chars ['t', 'r', 'u', 'e'] *> pure (.boolean true)) <|>
    (chars ['f', 'a', 'l', 's', 'e'] *> pure (.boolean false))

/-- An array with its items on any number of lines. A comma may follow the last one. -/
def array (item : Reader Item) : Reader Item := do
  char '['
  let items ← separated (gap *> item <* gap) (char ',')
  unless items.isEmpty do discard (optional (char ','))
  gap
  char ']'
  return .array items

/-- A table on one line. -/
def inlineTable (item : Reader Item) : Reader Item := do
  char '\x7b'
  spaces
  let entries ← separated (do
    let path ← key
    equals
    let v ← item
    spaces
    return (path, v)) (char ',')
  spaces
  char '\x7d'
  match Entries.insertAll [] entries with
  | some es => return .inlineTable es
  | none => failure

/-- A value in which arrays and tables are nested less than so many deep. -/
def valueWithin : (depth : Nat) → Reader Item
  | 0 => scalar
  | depth + 1 => array (valueWithin depth) <|> inlineTable (valueWithin depth) <|> scalar

def value : Reader Item := valueWithin (depthLimit - 1)

/-! ## Lines -/

/-- An entry of the table at hand. -/
def entry : Reader (List String × Item) := do
  let path ← key
  equals
  let v ← value
  lineEnd
  return (path, v)

/-- A line with nothing but blanks or a comment. -/
def emptyLine : Reader Unit := do
  spaces
  (comment *> (newline <|> endOfInput)) <|> newline

/-- The entries up to the next header. -/
def body : Reader (List (List String × Item)) := do
  let lines ← many ((emptyLine *> pure none) <|> (some <$> (spaces *> entry)))
  spaces
  return lines.filterMap id

/-- A header with the entries below it. The flag says whether the header may come again. -/
def tableSection : Reader (Bool × List String × List (List String × Item)) := do
  char '['
  let several ← isNext '['
  if several then char '['
  let path ← key
  char ']'
  if several then char ']'
  lineEnd
  return (several, path, ← body)

def addSection (es : Entries) (several : Bool) (path : List String)
    (content : List (List String × Item)) : Option Entries :=
  match path.getLast? with
  | some k =>
    es.within path.dropLast (if several then Entries.append k content else Entries.define k content)
  | none => none

def addSections (es : Entries) :
    List (Bool × List String × List (List String × Item)) → Option Entries
  | [] => some es
  | (several, path, content) :: rest =>
    (addSection es several path content).bind fun es => addSections es rest

/-- A whole document. A byte-order mark may come first. -/
def document : Reader Entries := do
  discard (optional (char '\ufeff'))
  let first ← body
  let sections ← many tableSection
  endOfInput
  match (Entries.insertAll [] first).bind fun es => addSections es sections with
  | some es => return es
  | none => failure

def read? (text : String) : Option Entries := (document text.toList).map Prod.fst

end ScriptVM.Toml
