import ScriptVM.Number.Shortest
import ScriptVM.Text.Quoted
import ScriptVM.Value.Heap

/-!
# Display

How values are shown. Strings are quoted inside other values and when shown as themselves; the text
of a value, which is what joining it to a string adds, leaves a string as it is. Keys of maps are
never quoted.

As in equality, `displayWith` is a recursion on the value alone and `Heap.displayUpTo` follows
references, none of them inside itself.
-/

namespace ScriptVM

/-- The form of a value, given the forms of references. -/
def Value.displayWith (array : ArrayRef → String) (map : MapRef → String) : Value → String
  | .undefined => "<undefined>"
  | .bool true => "true"
  | .bool false => "false"
  | .int n => SignedDecimal.text n
  | .float x => x.text
  | .string s => Text.quoted s
  | .array ref => array ref
  | .map ref => map ref
  | .error payload => "error: " ++ displayWith array map payload
  | .function _ => "<compiled-function>"
  | .builtin b => "<builtin-function:" ++ b.name ++ ">"

namespace Heap

/-- The form of an array, given the forms of its elements. -/
def arrayForm (forms : List String) : String := "[" ++ ", ".intercalate forms ++ "]"

/-- The form of a map, given its keys and the forms of their values. -/
def mapForm (forms : List (String × String)) : String :=
  "\x7b" ++ ", ".intercalate (forms.map fun (k, v) => k ++ ": " ++ v) ++ "\x7d"

/-- The form of a value that follows references so many deep, on the way from the containers on a
path. A container inside itself is shown without what it holds. -/
def displayUpTo (h : Heap) : (depth : Nat) → (path : List Container) → Value → String
  | 0, _ => Value.displayWith (fun _ => arrayForm []) (fun _ => mapForm [])
  | depth + 1, path =>
    Value.displayWith
      (fun ref =>
        if .array ref ∈ path then arrayForm []
        else arrayForm ((h.arrayAt ref).toList.map (displayUpTo h depth (.array ref :: path))))
      (fun ref =>
        if .map ref ∈ path then mapForm []
        else mapForm ((h.mapAt ref).entries.map fun (k, v) =>
          (k, displayUpTo h depth (.map ref :: path) v)))

def display (h : Heap) (v : Value) : String := h.displayUpTo h.containers [] v

/-- The text that a value adds to a string. -/
def textOf (h : Heap) : Value → String
  | .string s => s
  | v => h.display v

end Heap

/-- How a builtin is described to a programmer. -/
def Builtin.description (b : Builtin) : String :=
  "BuiltinFunction \x7b name: " ++ Text.quoted b.name ++ ", .. \x7d"

end ScriptVM
