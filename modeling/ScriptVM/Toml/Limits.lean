import ScriptVM.Limits
import ScriptVM.Toml.Document

/-!
# Limits from documents

Limits can be given by a document. What it leaves out keeps its default, what it has beside them is
ignored, and a limit that is not an integer, or is negative, makes the document unreadable. This is
what the reader of documents is for; which limits a document gives, and which of them are accepted,
is proved in `ScriptVM.Proofs.AcceptedLimits`.
-/

namespace ScriptVM.Limits

/-- A limit in a document, if it has it. -/
def entry? (es : Toml.Entries) (key : String) : Except LimitsError (Option Nat) :=
  match es.lookup key with
  | none => .ok none
  | some (.integer n) => if n < 0 then .error .unreadable else .ok (some n.toInt.toNat)
  | some _ => .error .unreadable

/-- The limits that a document gives. -/
def ofEntries (es : Toml.Entries) : Except LimitsError Limits := do
  let stackSize ← entry? es "stack_size"
  let maxFrames ← entry? es "max_frames"
  let maxAllocs ← entry? es "max_allocs"
  let default : Limits := {}
  .ok ⟨stackSize.getD default.stackSize, maxFrames.getD default.maxFrames, maxAllocs⟩

/-- The limits that the text of a document gives, validated. -/
def ofToml (text : String) : Except LimitsError Limits :=
  match Toml.read? text with
  | none => .error .unreadable
  | some es => do
    let l ← ofEntries es
    l.validate
    .ok l

end ScriptVM.Limits
