import ScriptVM.Toml.Limits
import ScriptVM.Proofs.CallLayout
import ScriptVM.Proofs.Launch

/-!
# Accepted limits

Limits are read from a document and checked once, before anything is run under them. What a document
gives is what it says and the defaults for the rest. The check asks for the room that every call
from outside takes, an element of the stack for the callee and two activations, and for no more: the
limits that pass it are those under which some function can be called at all.
-/

namespace ScriptVM

namespace Limits

variable {l : Limits}

/-! ## The check -/

theorem validate_eq_ok_iff : l.validate = .ok () ↔ 1 ≤ l.stackSize ∧ 2 ≤ l.maxFrames := by
  unfold validate
  split
  · simp only [reduceCtorEq, false_iff]
    omega
  · split
    · simp only [reduceCtorEq, false_iff]
      omega
    · simp only [true_iff]
      omega

/-- The limits that are checked, by name. -/
def checked (l : Limits) : List (String × Nat) :=
  [("stack_size", l.stackSize), ("max_frames", l.maxFrames)]

/-- What is refused is one of the checked limits, and the refusal tells its name and its value,
which is below the least one. -/
theorem mem_checked_of_validate_eq_error {e : LimitsError} (h : l.validate = .error e) :
    ∃ field least value, e = .tooSmall field least value ∧ (field, value) ∈ l.checked ∧
      value < least := by
  unfold validate at h
  split at h
  · cases h
    exact ⟨_, _, _, rfl, by simp [checked], ‹_›⟩
  · split at h
    · cases h
      exact ⟨_, _, _, rfl, by simp [checked], ‹_›⟩
    · cases h

/-! ## Documents

A name of a document is read in one of three ways: it is missing, so there is no limit of this name;
it stands for an integer that is not negative; or it stands for anything else, and then nothing is
read.
-/

theorem bind_eq_ok_iff {α β : Type} {x : Except LimitsError α} {k : α → Except LimitsError β}
    {b : β} : (x >>= k) = .ok b ↔ ∃ a, x = .ok a ∧ k a = .ok b := by
  cases x with
  | ok a => exact ⟨fun h => ⟨a, rfl, h⟩, fun ⟨_, ha, h⟩ => by cases ha; exact h⟩
  | error e => exact ⟨nofun, nofun⟩

/-- A document gives a number under a name, or none. -/
inductive Gives (es : Toml.Entries) (key : String) : Option Nat → Prop where
  | missing (h : es.lookup key = none) : Gives es key none
  | integer (n : Int64) (h : es.lookup key = some (.integer n)) (hn : 0 ≤ n) :
    Gives es key (some n.toInt.toNat)

theorem entry?_eq_ok_iff {es : Toml.Entries} {key : String} {x : Option Nat} :
    entry? es key = .ok x ↔ Gives es key x := by
  constructor
  · intro h
    unfold entry? at h
    split at h
    case h_1 hmissing =>
      cases h
      exact .missing hmissing
    case h_2 n hn =>
      split at h
      · cases h
      · cases h
        exact .integer n hn (Int64.not_lt.1 ‹_›)
    case h_3 => cases h
  · intro h
    unfold entry?
    cases h with
    | missing h => rw [h]
    | integer n h hn =>
      rw [h]
      exact if_neg (Int64.not_lt.2 hn)

/-- Limits as a document gives them, with the defaults for what is missing. -/
structure GivenBy (es : Toml.Entries) (l : Limits) : Prop where
  stackSize : ∃ x, Gives es "stack_size" x ∧ l.stackSize = x.getD ({} : Limits).stackSize
  maxFrames : ∃ x, Gives es "max_frames" x ∧ l.maxFrames = x.getD ({} : Limits).maxFrames
  maxAllocs : Gives es "max_allocs" l.maxAllocs

theorem ofEntries_eq_ok_iff {es : Toml.Entries} : ofEntries es = .ok l ↔ l.GivenBy es := by
  unfold ofEntries
  simp only [bind_eq_ok_iff, entry?_eq_ok_iff]
  constructor
  · rintro ⟨stackSize, hstack, maxFrames, hframes, maxAllocs, hallocs, h⟩
    cases h
    exact ⟨⟨_, hstack, rfl⟩, ⟨_, hframes, rfl⟩, hallocs⟩
  · rintro ⟨⟨stackSize, hstack, hs⟩, ⟨maxFrames, hframes, hf⟩, hallocs⟩
    refine ⟨stackSize, hstack, maxFrames, hframes, l.maxAllocs, hallocs, ?_⟩
    rw [← hs, ← hf]

/-- The limits that a text gives are those of the document that is read from it, if they pass the
check. -/
theorem ofToml_eq_ok_iff {text : String} :
    ofToml text = .ok l ↔
      ∃ es, Toml.read? text = some es ∧ l.GivenBy es ∧ l.validate = .ok () := by
  unfold ofToml
  cases Toml.read? text with
  | none => simp
  | some es =>
    simp only [bind_eq_ok_iff, ofEntries_eq_ok_iff, Option.some.injEq, exists_eq_left']
    constructor
    · rintro ⟨l', hgiven, _, hvalid, h⟩
      cases h
      exact ⟨hgiven, hvalid⟩
    · rintro ⟨hgiven, hvalid⟩
      exact ⟨l, hgiven, (), hvalid, rfl⟩

example : ofToml "max_allocs = 10" = .ok { maxAllocs := some 10 } := by cbv

end Limits

/-! ## What the check is for

A call from outside pushes the callee and starts an activation on the stub. The stub called by
itself takes no more than that.
-/

section Calls

variable {pool globals : Array Value} {limits : Limits} {heap : Heap}

theorem Exec.enterCall_rootStub (hstack : 1 ≤ limits.stackSize) (hframes : 2 ≤ limits.maxFrames)
    (id : Nat) :
    ∃ start, enterCall ⟨id, rootStub⟩ [] (.idle pool globals limits heap) = .ok () start := by
  have hpush : push (.function ⟨id, rootStub⟩) (.onStub pool globals limits heap) =
      .ok () ((Machine.onStub pool globals limits heap).withValues [.function ⟨id, rootStub⟩]) := by
    rw [push_eq]
    exact if_pos hstack
  -- There are no slots to fill, so all that is left is the second activation.
  have hfill := fillSlots_eq (.onStub pool globals limits heap) [.function ⟨id, rootStub⟩]
    (show ([] : List Value).length = rootStub.numParams from rfl) (by decide) hstack
  rw [if_pos ⟨hstack, hframes⟩] at hfill
  rw [enterCall, bind_eq, pushFrame_rootStub, if_pos (by omega)]
  dsimp only
  rw [bind_eq, hpush]
  exact ⟨_, hfill⟩

/-- Limits are accepted if there is a function at all that can be called from outside under them. -/
theorem Limits.validate_iff_enterCall :
    limits.validate = .ok () ↔
      ∃ f args start, Exec.enterCall f args (.idle pool globals limits heap) = .ok () start := by
  rw [Limits.validate_eq_ok_iff]
  constructor
  · rintro ⟨hstack, hframes⟩
    exact ⟨⟨0, rootStub⟩, [], Exec.enterCall_rootStub hstack hframes 0⟩
  · rintro ⟨f, args, start, h⟩
    obtain ⟨hentered, hstack⟩ := Exec.entered_of_enterCall h
    exact ⟨hstack, hentered.room⟩

end Calls

end ScriptVM
