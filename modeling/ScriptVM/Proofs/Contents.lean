import Mathlib.Data.List.Dedup
import ScriptVM.Proofs.Exec
import ScriptVM.Proofs.Fields
import ScriptVM.Proofs.Heap
import ScriptVM.Proofs.Spared

/-!
# What containers hold after writes

Whatever is attempted to be written through whatever handles, what a container holds at a key is
what the last successful write to that key of that container has put there, and what it held before
where there was none. A failed attempt changes nothing, and a successful one nothing but the one
element or field.
-/

namespace ScriptVM

/-! ## Attempts to write

Attempts are made in order, and each of them may fail. What decides is the heap that the ones before
have left, though in the end only lengths matter, which no attempt changes.
-/

/-- A write `receiver[key] = value`, which may fail. -/
structure Attempt where
  receiver : Value
  key : Value
  value : Value

def Attempt.run (a : Attempt) : HeapM Unit := HeapM.assign a.receiver a.key a.value

namespace Heap

def afterAttempts : Heap → List Attempt → Heap
  | h, [] => h
  | h, a :: rest => (HeapM.after a.run h).afterAttempts rest

/-- Those of the attempts that succeed when they are made in order. -/
def successes : Heap → List Attempt → List Attempt
  | _, [] => []
  | h, a :: rest =>
    match a.run h with
    | .ok _ h' => a :: h'.successes rest
    | .error _ h' => h'.successes rest

/-- Where a value can be assigned: at an index from zero up to the length of an array, and at any
string of a map. -/
def Assignable (h : Heap) : Value → Value → Prop
  | .array ref, .int n => 0 ≤ n.toInt ∧ n.toInt < (h.arrayAt ref).size
  | .map _, .string _ => True
  | _, _ => False

def held? (h : Heap) : Value → Value → Option Value
  | .array ref, .int n => (position? n).bind ((h.arrayAt ref)[·]?)
  | .map ref, .string k => (h.mapAt ref).get? k
  | _, _ => none

end Heap

/-- The key is of the type that the keys of the container are of. -/
inductive KeyOf : Value → Value → Prop where
  | array (ref : ArrayRef) (n : Int64) : KeyOf (.array ref) (.int n)
  | map (ref : MapRef) (k : String) : KeyOf (.map ref) (.string k)

/-- The value of the last of some writes to a key of a container. -/
def lastWritten? (c key : Value) (writes : List Attempt) : Option Value :=
  (writes.reverse.find? fun a => a.receiver = c ∧ a.key = key).map Attempt.value

/-- The names of the fields that some writes are to. -/
def writtenKeys (c : Value) (writes : List Attempt) : List String :=
  (writes.filter fun a => a.receiver = c).filterMap fun a => a.key.asString?

variable {h h' : Heap} {c key receiver v : Value} {place : Place} {n : Int64} {i : Nat}
  {a : Attempt} {writes : List Attempt} {e : Fault}

/-- A later write to the same place makes an earlier one forgotten. -/
theorem lastWritten?_cons : lastWritten? c key (a :: writes) =
    (lastWritten? c key writes).or
      (if a.receiver = c ∧ a.key = key then some a.value else none) := by
  rw [lastWritten?, List.reverse_cons, List.find?_append, Option.map_or]
  by_cases ha : a.receiver = c ∧ a.key = key <;> simp [lastWritten?, List.find?, ha]

/-- A field has been written if some write is to its name. -/
theorem isSome_lastWritten? {k : String} :
    (lastWritten? c (.string k) writes).isSome ↔ k ∈ writtenKeys c writes := by
  have hkey : ∀ v : Value, v.asString? = some k ↔ v = .string k := by
    intro v
    cases v <;> simp [Value.asString?]
  simp [lastWritten?, writtenKeys, hkey, and_assoc]

/-! ## Reading -/

/-- Reading with a key of the right type never fails; where nothing is held, `undefined` is read. -/
theorem Heap.index_of_keyOf (hkey : KeyOf c key) :
    h.index c key = .ok ((h.held? c key).getD .undefined) := by
  cases hkey <;> rfl

/-- What is read of a container is up to the container. -/
theorem Heap.reads_of_same (hsame : ∀ k i, c.object? = some (k, i) → h.Same h' k i) :
    (∀ key, h'.index c key = h.index c key) ∧
      CoreBuiltin.lengthOf h' c = CoreBuiltin.lengthOf h c := by
  have harray {ref : ArrayRef} (hc : c = .array ref) : h'.arrayAt ref = h.arrayAt ref :=
    hsame .array ref.index (hc ▸ rfl)
  have hmap {ref : MapRef} (hc : c = .map ref) : h'.mapAt ref = h.mapAt ref :=
    hsame .map ref.index (hc ▸ rfl)
  constructor
  · intro key
    unfold index
    split
    case h_1 => rw [harray rfl]
    case h_2 => rw [hmap rfl]
    all_goals rfl
  · unfold CoreBuiltin.lengthOf
    split
    case h_2 => rw [harray rfl]
    case h_3 => rw [hmap rfl]
    all_goals rfl

theorem CoreBuiltin.call_len {n : Nat} (hn : lengthOf h c = .ok n) :
    CoreBuiltin.len.call [c] h = .ok (.int (Int64.ofNat n)) h := by
  simp only [call, onlyArgument, bind, EStateM.bind, HeapM.ofExcept, pure, EStateM.pure,
    Exec.get_eq, hn]

/-! ## One attempt

An attempt looks for the place first and then writes there. So whether it succeeds is up to the
place, and what it changes is one element or field.
-/

/-- Of the integers, those that are not negative are positions. -/
theorem position?_eq_some_iff : position? n = some i ↔ n.toInt = i := by
  have hnegative : n < 0 ↔ n.toInt < 0 := Int64.lt_iff_toInt_lt
  unfold position?
  split <;> rename_i hn
  · have hn := hnegative.1 hn
    simp only [reduceCtorEq, false_iff]
    omega
  · have hn := mt hnegative.2 hn
    rw [Option.some.injEq]
    omega

theorem HeapM.assign_eq (receiver key v : Value) (h : Heap) :
    assign receiver key v h = match h.place receiver key with
      | .ok place => .ok () (h.write v place)
      | .error e => .error e h := by
  unfold assign
  simp only [bind, EStateM.bind, Exec.get_eq]
  cases h.place receiver key <;> rfl

namespace Heap

/-- A place is an element of an array or a field of a map. -/
theorem place_cases (hplace : h.place receiver key = .ok place) :
    (∃ ref n i, receiver = .array ref ∧ key = .int n ∧ place = .element ref i ∧
      n.toInt = i ∧ i < (h.arrayAt ref).size) ∨
    ∃ ref k, receiver = .map ref ∧ key = .string k ∧ place = .field ref k := by
  unfold Heap.place at hplace
  split at hplace
  case h_1 ref n =>
    dsimp only at hplace
    cases hi : position? n with
    | none =>
      rw [hi] at hplace
      cases hplace
    | some i =>
      simp only [hi] at hplace
      split at hplace
      · rename_i hlt
        cases hplace
        exact .inl ⟨ref, n, i, rfl, rfl, rfl, position?_eq_some_iff.1 hi, hlt⟩
      · cases hplace
  case h_2 ref k =>
    cases hplace
    exact .inr ⟨ref, k, rfl, rfl, rfl⟩
  all_goals cases hplace

/-- The receiver is a container, and the key is one that can be assigned to. -/
theorem exists_place_iff : (∃ place, h.place receiver key = .ok place) ↔
    h.Assignable receiver key := by
  constructor
  · rintro ⟨place, hplace⟩
    rcases place_cases hplace with ⟨ref, n, i, rfl, rfl, -, hn, hlt⟩ | ⟨ref, k, rfl, rfl, -⟩
    · show 0 ≤ n.toInt ∧ n.toInt < (h.arrayAt ref).size
      omega
    · trivial
  · intro hassignable
    unfold Assignable at hassignable
    split at hassignable
    case h_1 ref n =>
      have hi : position? n = some n.toInt.toNat := position?_eq_some_iff.2 (by omega)
      have hlt : n.toInt.toNat < (h.arrayAt ref).size := by omega
      exact ⟨.element ref n.toInt.toNat, by simp only [place, hi, if_pos hlt]⟩
    case h_2 ref k => exact ⟨.field ref k, rfl⟩
    case h_3 => exact hassignable.elim

def Has (h : Heap) (c : Value) : Prop := ∀ k i, c.object? = some (k, i) → i < h.count k

theorem Has.write (hc : h.Has c) : (h.write v place).Has c := by
  intro k i hobject
  rw [(h.sets_write v place).count]
  exact hc k i hobject

/-- Another index of the array, or another container, holds what it held. -/
theorem held?_setElement {ref : ArrayRef} (hn : n.toInt = i) (hlt : i < (h.arrayAt ref).size) :
    (h.setElement ref i v).held? c key =
      if .array ref = c ∧ .int n = key then some v else h.held? c key := by
  cases c with
  | array ref' =>
    cases key with
    | int n' =>
      simp only [held?, arrayAt_setElement, Value.array.injEq, Value.int.injEq]
      by_cases href : ref' = ref
      · subst href
        cases hj : position? n' with
        | none =>
          have hne : n ≠ n' := by
            rintro rfl
            rw [position?_eq_some_iff.2 hn] at hj
            cases hj
          simp [hne]
        | some j =>
          have hj := position?_eq_some_iff.1 hj
          have heq : i = j ↔ n = n' := by
            rw [← Int64.toInt_inj]
            omega
          simp [Array.getElem?_setIfInBounds, heq, hlt]
      · simp [href, Ne.symm href]
    | _ => simp [held?]
  | map ref' =>
    rw [if_neg (by simp)]
    cases key <;> rfl
  | _ => simp [held?]

theorem held?_setField {ref : MapRef} {k : String} (hc : h.Has c) :
    (h.setField ref k v).held? c key =
      if .map ref = c ∧ .string k = key then some v else h.held? c key := by
  cases c with
  | map ref' =>
    cases key with
    | string k' =>
      have hlt : ref'.index < h.maps.size := hc .map ref'.index rfl
      simp only [held?, mapAt_setField, Value.map.injEq, Value.string.injEq]
      by_cases href : ref' = ref
      · subst href
        simp [FieldMap.get?_insert, hlt]
      · simp [href, Ne.symm href]
    | _ => simp [held?]
  | array ref' =>
    rw [if_neg (by simp)]
    cases key <;> rfl
  | _ => simp [held?]

/-- A write changes what one container holds at one key. -/
theorem held?_write (hc : h.Has c) {key' : Value} (hplace : h.place receiver key' = .ok place) :
    (h.write v place).held? c key =
      if receiver = c ∧ key' = key then some v else h.held? c key := by
  rcases place_cases hplace with ⟨ref, n, i, rfl, rfl, rfl, hn, hlt⟩ | ⟨ref, k, rfl, rfl, rfl⟩
  · exact held?_setElement hn hlt
  · exact held?_setField hc

end Heap

/-- An attempt succeeds or fails, and a failed one changes nothing. -/
theorem Attempt.run_cases (a : Attempt) (h : Heap) :
    (∃ place, h.place a.receiver a.key = .ok place ∧ a.run h = .ok () (h.write a.value place)) ∨
      ∃ e, h.place a.receiver a.key = .error e ∧ a.run h = .error e h := by
  rw [run, HeapM.assign_eq]
  cases hplace : h.place a.receiver a.key with
  | ok place => exact .inl ⟨place, rfl, rfl⟩
  | error e => exact .inr ⟨e, rfl, rfl⟩

/-- Success is a matter of the receiver and the key, whatever value is to be written. -/
theorem Attempt.run_eq_ok_iff : (∃ h', a.run h = .ok () h') ↔ h.Assignable a.receiver a.key := by
  rw [← Heap.exists_place_iff]
  rcases a.run_cases h with ⟨place, hplace, hrun⟩ | ⟨e, hplace, hrun⟩ <;> simp [hplace, hrun]

/-- A successful attempt leaves every other container as it is. -/
theorem Attempt.same_of_ne (hc : a.receiver ≠ c) (hrun : a.run h = .ok () h') {k : Kind}
    (hobject : c.object? = some (k, i)) : h.Same h' k i := by
  rcases a.run_cases h with ⟨place, hplace, hrun'⟩ | ⟨e, -, hrun'⟩
  · rw [hrun'] at hrun
    cases hrun
    have hne : (k, i) ≠ place.object := fun heq =>
      hc (Value.eq_of_object? (Heap.object_of_place hplace) (heq ▸ hobject))
    refine (h.sets_write a.value place).same k i ?_
    by_contra hboth
    obtain ⟨hk, hi⟩ := not_or.1 hboth
    exact hne (Prod.ext (not_not.1 hk) (not_not.1 hi))
  · rw [hrun'] at hrun
    cases hrun

/-! ## Several attempts

By induction on the attempts, the first one taken off.
-/

namespace Heap

variable {attempts : List Attempt}

/-- What a container holds at a key after some attempts. -/
theorem held?_afterAttempts (hc : h.Has c) (key : Value) (attempts : List Attempt) :
    (h.afterAttempts attempts).held? c key =
      (lastWritten? c key (h.successes attempts)).or (h.held? c key) := by
  induction attempts generalizing h with
  | nil => rfl
  | cons a rest ih =>
    rcases a.run_cases h with ⟨place, hplace, hrun⟩ | ⟨e, -, hrun⟩
    · rw [afterAttempts, HeapM.after, successes, hrun]
      dsimp only
      rw [ih hc.write, lastWritten?_cons, Option.or_assoc, held?_write hc hplace]
      by_cases ha : a.receiver = c ∧ a.key = key <;> simp [ha]
    · rw [afterAttempts, HeapM.after, successes, hrun]
      exact ih hc

/-- Attempts never change the length of an array. -/
theorem size_afterAttempts (ref : ArrayRef) :
    ((h.afterAttempts attempts).arrayAt ref).size = (h.arrayAt ref).size := by
  induction attempts generalizing h with
  | nil => rfl
  | cons a rest ih =>
    rw [afterAttempts, ih]
    rcases a.run_cases h with ⟨place, -, hrun⟩ | ⟨e, -, hrun⟩
    · rw [HeapM.after, hrun]
      cases place with
      | element ref' i =>
        simp only [write, arrayAt_setElement]
        split
        · simp [*]
        · rfl
      | field ref' k => rfl
    · rw [HeapM.after, hrun]

/-- The fields of a map after attempts are those that it had and those that have been written. -/
theorem size_mapAt_afterAttempts {ref : MapRef} (href : h.Has (.map ref)) {keys : List String}
    (hkeys : ∀ k, k ∈ keys ↔ ((h.mapAt ref).get? k).isSome) :
    ((h.afterAttempts attempts).mapAt ref).size =
      (keys ++ writtenKeys (.map ref) (h.successes attempts)).dedup.length := by
  generalize hfields : (h.afterAttempts attempts).mapAt ref = fields
  have hperm : (fields.entries.map Prod.fst).Perm
      (keys ++ writtenKeys (.map ref) (h.successes attempts)).dedup := by
    rw [List.perm_ext_iff_of_nodup fields.sorted.nodup (List.nodup_dedup _)]
    intro k
    have hheld : ((h.afterAttempts attempts).mapAt ref).get? k =
        (lastWritten? (.map ref) (.string k) (h.successes attempts)).or ((h.mapAt ref).get? k) :=
      held?_afterAttempts href (.string k) attempts
    rw [← FieldMap.isSome_get?, ← hfields, hheld, Option.isSome_or, Bool.or_eq_true,
      isSome_lastWritten?, List.mem_dedup, List.mem_append, hkeys, or_comm]
  rw [← hperm.length_eq, List.length_map]
  rfl

end Heap
end ScriptVM
