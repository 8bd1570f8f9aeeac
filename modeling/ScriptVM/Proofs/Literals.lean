import ScriptVM.Proofs.CallLayout
import ScriptVM.Proofs.Contents

/-!
# Containers that literals make

A literal makes a new container of what is on the stack. From then on the container behaves as an
array of fixed length or as a finite map, however many handles there are to it: attempts to write
that are made through any of them, with attempts to write to other containers and attempts that
fail in between, are all there is to know of what it holds.
-/

namespace ScriptVM

/-- An array or map literal with the values that it is made of. -/
inductive Literal where
  | array (items : List Value)
  | map (pairs : List (String × Value))

namespace Literal

def instruction : Literal → Instruction
  | array items => ⟨.array, [items.length]⟩
  | map pairs => ⟨.map, [pairs.length]⟩

def operands : Literal → List Value
  | array items => items
  | map pairs => pairs.flatMap fun p => [.string p.1, p.2]

def kind : Literal → Kind
  | array _ => .array
  | map _ => .map

/-- What the literal has at a key. Of pairs with one key it is the last. -/
def element? : Literal → Value → Option Value
  | array items, .int n => if 0 ≤ n.toInt then items[n.toInt.toNat]? else none
  | map pairs, .string k => pairs.reverse.lookup k
  | _, _ => none

def size : Literal → List String → Nat
  | array items, _ => items.length
  | map pairs, written => (pairs.map Prod.fst ++ written).dedup.length

def make : Literal → HeapM Value
  | array items => HeapM.newArray items.toArray
  | map pairs => HeapM.newMap (.ofList pairs)

end Literal

namespace Exec

variable {m : Machine} {below : List Value}

/-- Keys are strings here, so that no pair is refused. -/
theorem fieldsOf_pairs (fields : FieldMap Value) (pairs : List (String × Value)) :
    fieldsOf fields (pairs.flatMap fun p => [.string p.1, p.2]) =
      .ok (pairs.foldl (fun m p => m.insert p.1 p.2) fields) := by
  induction pairs generalizing fields with
  | nil => rfl
  | cons p pairs ih => exact ih (fields.insert p.1 p.2)

/-- A new object is charged and put on the stack. -/
def pushNew (x : HeapM Value) : Exec Unit := do
  charge
  push (← onHeap x)

/-- The budget is asked before the object is made, and the stack afterwards. -/
theorem pushNew_eq {x : HeapM Value} {c : Value} {h' : Heap} (hx : x m.heap = .ok c h') :
    pushNew x m =
      if m.budget = some 0 then .error .objectAllocLimit m
      else push c { m with budget := m.budget.map (· - 1), heap := h' } := by
  have hpush (m₁ : Machine) (hm₁ : m₁.heap = m.heap) :
      (onHeap x >>= push) m₁ = push c { m₁ with heap := h' } := by
    rw [bind_eq, onHeap_eq, hm₁, hx]
  rw [pushNew, bind_eq, charge_eq]
  cases hbudget : m.budget with
  | none =>
    rw [if_neg nofun]
    refine (hpush m rfl).trans ?_
    show _ = push c { m with budget := none, heap := h' }
    rw [← hbudget]
  | some n =>
    cases n with
    | zero => rfl
    | succ n => exact hpush { m with budget := some n } rfl

/-- A literal takes its operands from the stack, and then puts what it makes there. -/
theorem execute_literal (lit : Literal) (host : Host) :
    execute host lit.instruction (m.withValues (below ++ lit.operands)) =
      goOn (pushNew lit.make) (m.withValues below) := by
  have htaken (count : Nat) (hcount : lit.operands.length = count) :
      onStack (Stack.popMany count) (m.withValues (below ++ lit.operands)) =
        .ok lit.operands (m.withValues below) := by
    subst hcount
    have hall : onStack (Stack.popMany (lit.operands.length - 0))
        (m.withValues (below ++ lit.operands)) =
          .ok (lit.operands.drop 0) (m.withValues (below ++ lit.operands.take 0)) :=
      popMany_withValues (Nat.zero_le lit.operands.length)
    simpa using hall
  cases lit with
  | array items =>
    show goOn (makeArray items.length) _ = _
    rw [goOn, goOn, bind_eq, bind_eq, makeArray, bind_eq, htaken items.length rfl]
    rfl
  | map pairs =>
    have hcount : (Literal.map pairs).operands.length = pairs.length * 2 := by
      simp [Literal.operands, List.length_flatMap]
    show goOn (makeMap pairs.length) _ = _
    rw [goOn, goOn, bind_eq, bind_eq, makeMap, bind_eq, htaken (pairs.length * 2) hcount]
    dsimp only
    rw [bind_eq, Literal.operands, fieldsOf_pairs]
    rfl

/-- Whether a literal can be made depends on the budget and on the room on the stack only. -/
theorem execute_literal_cases (lit : Literal) (host : Host) (below : List Value) {c : Value}
    {h' : Heap} (hmake : lit.make m.heap = .ok c h') :
    if m.budget ≠ some 0 ∧ below.length < m.stack.capacity then
      ∃ m', execute host lit.instruction (m.withValues (below ++ lit.operands)) = .ok none m' ∧
        m'.stack.values.toList = below ++ [c] ∧ m'.heap = h'
    else
      ∃ e m', execute host lit.instruction (m.withValues (below ++ lit.operands)) =
        .error e m' := by
  let m₁ : Machine := { m with budget := m.budget.map (· - 1), heap := h' }
  have hpushed : pushNew lit.make (m.withValues below) =
      if m.budget = some 0 then .error .objectAllocLimit (m.withValues below)
      else push c (m₁.withValues below) := pushNew_eq hmake
  rw [execute_literal, goOn, bind_eq, hpushed, push_withValues]
  by_cases hbudget : m.budget = some 0
  · rw [if_neg fun h => h.1 hbudget, if_pos hbudget]
    exact ⟨_, _, rfl⟩
  · rw [if_neg hbudget]
    by_cases hroom : below.length < m.stack.capacity
    · rw [if_pos ⟨hbudget, hroom⟩, if_pos hroom]
      exact ⟨_, rfl, by simp [Machine.withValues], rfl⟩
    · rw [if_neg fun h => hroom h.2, if_neg hroom]
      exact ⟨_, _, rfl⟩

end Exec

/-! ## What a literal makes

A new container is on the heap, where nothing else refers to it, and holds what the literal says.
-/

variable {h : Heap} {c key : Value}

namespace Literal

variable {attempts : List Attempt} {items : List Value} {pairs : List (String × Value)}

/-- A literal's container holds what the literal says. -/
structure Made (lit : Literal) (c : Value) (h : Heap) : Prop where
  has : h.Has c
  entry : ∀ key, KeyOf c key → h.held? c key = lit.element? key
  size : ∀ attempts, CoreBuiltin.lengthOf (h.afterAttempts attempts) c =
    .ok (lit.size (writtenKeys c (h.successes attempts)))

/-- The elements come in the order of the stack. -/
theorem made_array {ref : ArrayRef} (href : ref.index < h.count .array)
    (hitems : h.arrayAt ref = items.toArray) : (array items).Made (.array ref) h where
  has := by
    rintro k i ⟨⟩
    exact href
  entry := by
    rintro _ ⟨_, n⟩
    show (position? n).bind ((h.arrayAt ref)[·]?) =
      if 0 ≤ n.toInt then items[n.toInt.toNat]? else none
    rw [hitems]
    cases hi : position? n with
    | none =>
      have hn : ¬ 0 ≤ n.toInt := fun hn => by
        rw [position?_eq_some_iff.2 (Int.toNat_of_nonneg hn).symm] at hi
        cases hi
      rw [if_neg hn]
      rfl
    | some i =>
      have hn := position?_eq_some_iff.1 hi
      rw [if_pos (by omega), hn]
      exact List.getElem?_toArray
  size attempts := by
    rw [CoreBuiltin.lengthOf, Heap.size_afterAttempts, hitems]
    rfl

/-- Of pairs with the same key, the last is held. -/
theorem made_map {ref : MapRef} (href : ref.index < h.count .map)
    (hfields : h.mapAt ref = .ofList pairs) : (map pairs).Made (.map ref) h := by
  have hget (k : String) : (h.mapAt ref).get? k = pairs.reverse.lookup k := by
    rw [hfields, FieldMap.get?_ofList]
  have hkeys (k : String) : k ∈ pairs.map Prod.fst ↔ ((h.mapAt ref).get? k).isSome := by
    rw [hget, List.lookup_isSome_iff]
    simp only [List.mem_map, List.mem_reverse, beq_iff_eq, @eq_comm _ k]
  have hhas : h.Has (.map ref) := by
    rintro k i ⟨⟩
    exact href
  refine ⟨hhas, ?_, fun attempts => ?_⟩
  · rintro _ ⟨⟩
    exact hget _
  · rw [CoreBuiltin.lengthOf, Heap.size_mapAt_afterAttempts hhas hkeys]
    rfl

/-- What a literal makes is new. -/
theorem exists_make (lit : Literal) (h : Heap) : ∃ c h', lit.make h = .ok c h' ∧
    c.object? = some (lit.kind, h.count lit.kind) ∧ Heap.Adds lit.kind h h' ∧ lit.Made c h' := by
  cases lit with
  | array items =>
    have hadds := h.adds_addArray items.toArray
    exact ⟨.array (h.addArray items.toArray).1, (h.addArray items.toArray).2, rfl, rfl, hadds,
      made_array hadds.lt (h.arrayAt_addArray_new items.toArray)⟩
  | map pairs =>
    have hadds := h.adds_addMap (.ofList pairs)
    exact ⟨.map (h.addMap (.ofList pairs)).1, (h.addMap (.ofList pairs)).2, rfl, rfl, hadds,
      made_map hadds.lt (h.mapAt_addMap_new (.ofList pairs))⟩

/-! ## What the container is like from then on

What it holds is settled by the attempts to write alone. Its size does not change if it is an array,
and is the number of different keys if it is a map.
-/

/-- What the container of a literal is like after attempts to write that began in `h₀`, and what
attempts can still do. -/
structure Behaves (lit : Literal) (c : Value) (h₀ : Heap) (attempts : List Attempt)
    (h : Heap) : Prop where
  reads : ∀ key, KeyOf c key → h.index c key =
    .ok (((lastWritten? c key (h₀.successes attempts)).or (lit.element? key)).getD .undefined)
  length : CoreBuiltin.len.call [c] h =
    .ok (.int (Int64.ofNat (lit.size (writtenKeys c (h₀.successes attempts))))) h
  succeeds : ∀ a : Attempt, (∃ h', a.run h = .ok () h') ↔ h.Assignable a.receiver a.key
  fails : ∀ (a : Attempt) e h', a.run h = .error e h' → h' = h
  elsewhere : ∀ (a : Attempt) h', a.receiver ≠ c → a.run h = .ok () h' →
    (∀ key, h'.index c key = h.index c key) ∧
      CoreBuiltin.lengthOf h' c = CoreBuiltin.lengthOf h c

/-- Each part follows from what attempts do to any container. -/
theorem Made.behaves {lit : Literal} {h₀ : Heap} (hmade : lit.Made c h₀)
    (attempts : List Attempt) : lit.Behaves c h₀ attempts (h₀.afterAttempts attempts) where
  reads key hkey := by
    rw [Heap.index_of_keyOf hkey, Heap.held?_afterAttempts hmade.has, hmade.entry key hkey]
  length := CoreBuiltin.call_len (hmade.size attempts)
  succeeds _ := Attempt.run_eq_ok_iff
  fails a e h' hrun := by
    rcases a.run_cases (h₀.afterAttempts attempts) with ⟨place, -, hrun'⟩ | ⟨e, -, hrun'⟩
    all_goals
      rw [hrun'] at hrun
      cases hrun
    rfl
  elsewhere _ _ hc hrun := Heap.reads_of_same fun _ _ => Attempt.same_of_ne hc hrun

end Literal

/-- A literal of which the operands are on the stack makes a new container, if an object may be
allocated and there is room. Whatever is attempted to be written afterwards, the container has at
each key what was last written to it there, or else what the literal has there. -/
theorem Literal.makes_container (lit : Literal) (host : Host) {m : Machine} {below : List Value}
    (hvalues : m.stack.values.toList = below ++ lit.operands) :
    ((∃ m', Exec.execute host lit.instruction m = .ok none m') ↔
      m.budget ≠ some 0 ∧ below.length < m.stack.capacity) ∧
    ∀ m', Exec.execute host lit.instruction m = .ok none m' →
      ∃ c, m'.stack.values.toList = below ++ [c] ∧
        c.object? = some (lit.kind, m.heap.count lit.kind) ∧
        Heap.Adds lit.kind m.heap m'.heap ∧
        ∀ attempts, lit.Behaves c m'.heap attempts (m'.heap.afterAttempts attempts) := by
  obtain ⟨c, h', hmake, hnew, hadds, hmade⟩ := lit.exists_make m.heap
  have hcases := Exec.execute_literal_cases lit host below hmake
  rw [Machine.withValues_self hvalues] at hcases
  split at hcases <;> rename_i hfits
  · obtain ⟨m₁, hrun, hstack, rfl⟩ := hcases
    refine ⟨⟨fun _ => hfits, fun _ => ⟨m₁, hrun⟩⟩, fun m' hrun' => ?_⟩
    rw [hrun] at hrun'
    cases hrun'
    exact ⟨c, hstack, hnew, hadds, hmade.behaves⟩
  · obtain ⟨e, m₁, hrun⟩ := hcases
    rw [hrun]
    simp [hfits]

/-- A map literal with one key twice, which then becomes a field of itself, while a write with a
key of another type fails and one to an array goes elsewhere. -/
theorem Literal.makes_container_repeatedKey :
    let lit := Literal.map [("a", .int 1), ("a", .int 2)]
    let m : Machine := { (default : Machine) with
      stack := ⟨lit.operands.toArray, 4⟩, heap := { arrays := #[#[.int 0]] } }
    let attempts : List Attempt := [⟨.map ⟨0⟩, .string "b", .map ⟨0⟩⟩,
      ⟨.map ⟨0⟩, .int 0, .int 7⟩, ⟨.array ⟨0⟩, .int 0, .int 8⟩]
    ∃ m', Exec.execute (fun _ _ => pure .undefined) lit.instruction m = .ok none m' ∧
      (m'.heap.afterAttempts attempts).index (.map ⟨0⟩) (.string "a") = .ok (.int 2) ∧
      (m'.heap.afterAttempts attempts).index (.map ⟨0⟩) (.string "b") = .ok (.map ⟨0⟩) ∧
      ∃ h, CoreBuiltin.len.call [.map ⟨0⟩] (m'.heap.afterAttempts attempts) = .ok (.int 2) h := by
  intro lit m attempts
  have hvalues : m.stack.values.toList = [] ++ lit.operands := rfl
  obtain ⟨-, hall⟩ := lit.makes_container (fun _ _ => pure .undefined) hvalues
  refine ⟨_, rfl, ?_⟩
  obtain ⟨c, -, hnew, -, hbehaves⟩ := hall _ rfl
  cases Value.eq_of_object? hnew (w := .map ⟨0⟩) rfl
  have hattempts := hbehaves attempts
  exact ⟨hattempts.reads _ (.map ⟨0⟩ "a"), hattempts.reads _ (.map ⟨0⟩ "b"), _, hattempts.length⟩

end ScriptVM
