/-!
# Field maps

A finite map with strings for keys, kept as the list of its entries in the order of their keys. The
order is part of the type, so two maps with the same entries are the same map. Strings are ordered
by code points, which is also the order of their UTF-8 bytes.
-/

namespace ScriptVM

variable {α β : Type}

/-- Entries in increasing order of their keys, no key twice. -/
def KeysSorted (entries : List (String × α)) : Prop :=
  entries.Pairwise fun a b => a.1 < b.1

/-- A finite map with strings for keys. -/
structure FieldMap (α : Type) where
  entries : List (String × α)
  sorted : KeysSorted entries

namespace FieldMap

def empty : FieldMap α := ⟨[], List.Pairwise.nil⟩

instance : Inhabited (FieldMap α) := ⟨empty⟩

instance [DecidableEq α] : DecidableEq (FieldMap α) := fun a b =>
  if h : a.entries = b.entries then
    isTrue (by cases a; cases b; cases h; rfl)
  else isFalse (fun e => h (congrArg entries e))

def size (m : FieldMap α) : Nat := m.entries.length

/-! ## Looking up -/

/-- The value at a key in a list of entries. -/
def lookup (key : String) : List (String × α) → Option α
  | [] => none
  | (k, a) :: rest => if k = key then some a else lookup key rest

def get? (m : FieldMap α) (key : String) : Option α := lookup key m.entries

/-! ## Inserting -/

/-- Puts a value at a key, in place of the one that is there. -/
def insertEntry (key : String) (a : α) : List (String × α) → List (String × α)
  | [] => [(key, a)]
  | (k, b) :: rest =>
    if key < k then (key, a) :: (k, b) :: rest
    else if key = k then (key, a) :: rest
    else (k, b) :: insertEntry key a rest

theorem mem_insertEntry {key : String} {a : α} {entries : List (String × α)} {p : String × α}
    (h : p ∈ insertEntry key a entries) : p = (key, a) ∨ p ∈ entries := by
  induction entries with
  | nil => simpa [insertEntry] using h
  | cons q rest ih =>
    obtain ⟨k, b⟩ := q
    simp only [insertEntry] at h
    split at h
    · simpa using h
    · split at h
      · rcases List.mem_cons.1 h with h | h
        · exact .inl h
        · exact .inr (List.mem_cons_of_mem _ h)
      · rcases List.mem_cons.1 h with h | h
        · exact .inr (h ▸ List.mem_cons_self ..)
        · exact (ih h).imp id (List.mem_cons_of_mem _)

theorem keysSorted_insertEntry (key : String) (a : α) {entries : List (String × α)}
    (h : KeysSorted entries) : KeysSorted (insertEntry key a entries) := by
  induction entries with
  | nil => simp [insertEntry, KeysSorted]
  | cons q rest ih =>
    obtain ⟨k, b⟩ := q
    have ⟨hk, hrest⟩ := List.pairwise_cons.1 h
    simp only [insertEntry]
    split
    next hlt =>
      refine List.pairwise_cons.2 ⟨fun p hp => ?_, h⟩
      rcases List.mem_cons.1 hp with rfl | hp
      · exact hlt
      · exact String.lt_trans hlt (hk p hp)
    next hlt =>
      split
      next heq =>
        subst heq
        exact List.pairwise_cons.2 ⟨hk, hrest⟩
      next hne =>
        refine List.pairwise_cons.2 ⟨fun p hp => ?_, ih hrest⟩
        rcases mem_insertEntry hp with rfl | hp
        · exact String.not_le.1 fun hle => hne (String.le_antisymm hle (String.not_lt.1 hlt))
        · exact hk p hp

def insert (m : FieldMap α) (key : String) (a : α) : FieldMap α :=
  ⟨insertEntry key a m.entries, keysSorted_insertEntry key a m.sorted⟩

/-- The map of a list of pairs. Of two pairs with one key the later one counts. -/
def ofList (pairs : List (String × α)) : FieldMap α :=
  pairs.foldl (fun m (k, a) => m.insert k a) empty

/-! ## Mapping -/

theorem keysSorted_of_keys_eq {a : List (String × α)} {b : List (String × β)}
    (ha : KeysSorted a) (hkeys : b.map Prod.fst = a.map Prod.fst) : KeysSorted b := by
  unfold KeysSorted at *
  rw [← List.pairwise_map (R := fun k l : String => k < l)] at *
  rwa [hkeys]

/-- Applies a computation to every value of a list of entries, in order. The keys stay. -/
def traverseEntries {m : Type → Type} [Monad m] (f : α → m β) :
    (entries : List (String × α)) →
      m { result : List (String × β) // result.map Prod.fst = entries.map Prod.fst }
  | [] => pure ⟨[], rfl⟩
  | (k, a) :: rest => do
    let b ← f a
    let ⟨result, h⟩ ← traverseEntries f rest
    pure ⟨(k, b) :: result, by simp [h]⟩

/-- Applies a computation to every value, in the order of the keys. -/
def traverse {m : Type → Type} [Monad m] (f : α → m β) (x : FieldMap α) : m (FieldMap β) := do
  let ⟨result, h⟩ ← traverseEntries f x.entries
  pure ⟨result, keysSorted_of_keys_eq x.sorted h⟩

/-! ## What an insertion does to look-ups -/

theorem lookup_insertEntry (key key' : String) (a : α) (entries : List (String × α)) :
    lookup key' (insertEntry key a entries) =
      if key = key' then some a else lookup key' entries := by
  induction entries with
  | nil => simp [insertEntry, lookup]
  | cons q rest ih =>
    obtain ⟨k, b⟩ := q
    simp only [insertEntry]
    split
    · simp [lookup]
    · split
      next heq =>
        subst heq
        by_cases hk : key = key' <;> simp [lookup, hk]
      next hne =>
        simp only [lookup, ih]
        by_cases hk : k = key'
        · subst hk
          simp [hne]
        · simp [hk]

theorem get?_insert (m : FieldMap α) (key key' : String) (a : α) :
    (m.insert key a).get? key' = if key = key' then some a else m.get? key' :=
  lookup_insertEntry key key' a m.entries

theorem mem_of_lookup {key : String} {a : α} {entries : List (String × α)}
    (h : lookup key entries = some a) : (key, a) ∈ entries := by
  induction entries with
  | nil => simp [lookup] at h
  | cons q rest ih =>
    obtain ⟨k, b⟩ := q
    simp only [lookup] at h
    split at h
    next heq =>
      subst heq
      cases h
      exact .head _
    next => exact .tail _ (ih h)

theorem get?_empty (key : String) : (empty : FieldMap α).get? key = none := rfl

end FieldMap
end ScriptVM
