import Mathlib.Data.List.Perm.Basic
import ScriptVM.FieldMap

/-!
# What field maps hold

A field map is told by its entries in any order, because their keys give the order back. So a map
that is made of pairs with different keys holds these pairs, and of pairs with one key it holds the
last.
-/

namespace ScriptVM

variable {α : Type} {m : FieldMap α} {key : String} {a : α} {entries pairs : List (String × α)}

/-- No key is less than itself. -/
theorem KeysSorted.nodup (h : KeysSorted entries) : (entries.map Prod.fst).Nodup := by
  refine List.pairwise_map.2 (h.imp fun {p q} hlt heq => ?_)
  rw [heq] at hlt
  exact String.lt_irrefl _ hlt

/-- There is one order only in which entries can stand. -/
theorem KeysSorted.eq_of_perm {entries' : List (String × α)} (h : KeysSorted entries)
    (h' : KeysSorted entries') (hperm : entries.Perm entries') : entries = entries' :=
  hperm.eq_of_pairwise (fun _ _ _ _ hlt hgt => absurd hgt (String.lt_asymm hlt)) h h'

namespace FieldMap

theorem eq_of_entries_eq {m' : FieldMap α} (h : m.entries = m'.entries) : m = m' := by
  cases m
  cases m'
  cases h
  rfl

theorem isSome_get? : (m.get? key).isSome ↔ key ∈ m.entries.map Prod.fst := by
  unfold get?
  generalize m.entries = entries
  induction entries with
  | nil => simp [lookup]
  | cons p entries ih =>
    by_cases hkey : p.1 = key
    · simp [lookup, hkey]
    · simp [lookup, hkey, ih, Ne.symm hkey]

/-! ## Making a map of pairs

The pairs are inserted one after the other, so that later ones overwrite earlier ones of the same
key. Which order the others come in makes no difference.
-/

/-- A pair with a new key is put somewhere among the entries. -/
theorem perm_insertEntry (hkey : key ∉ entries.map Prod.fst) :
    (insertEntry key a entries).Perm ((key, a) :: entries) := by
  induction entries with
  | nil => exact .refl _
  | cons p entries ih =>
    rw [List.map_cons, List.mem_cons, not_or] at hkey
    rw [insertEntry]
    split
    · exact .refl _
    · rw [if_neg hkey.1]
      exact ((ih hkey.2).cons p).trans (.swap ..)

/-- Pairs with different keys are the entries of the map that is made of them. -/
theorem perm_entries_ofList (hpairs : (pairs.map Prod.fst).Nodup) :
    (ofList pairs).entries.Perm pairs := by
  -- What is inserted into a map without these keys comes to what the map has.
  have hfold : ∀ m : FieldMap α, (∀ p ∈ pairs, p.1 ∉ m.entries.map Prod.fst) →
      (pairs.foldl (fun m p => m.insert p.1 p.2) m).entries.Perm (pairs ++ m.entries) := by
    induction pairs with
    | nil => exact fun m _ => .refl _
    | cons p pairs ih =>
      intro m hm
      obtain ⟨hp, hrest⟩ := List.nodup_cons.1 hpairs
      have hinsert := perm_insertEntry (a := p.2) (hm p List.mem_cons_self)
      refine (ih hrest (m.insert p.1 p.2) fun q hq hmem => ?_).trans ?_
      · rcases List.mem_cons.1 ((hinsert.map Prod.fst).mem_iff.1 hmem) with heq | hmem
        · exact hp (heq ▸ List.mem_map_of_mem hq)
        · exact hm q (List.mem_cons_of_mem _ hq) hmem
      · exact (hinsert.append_left pairs).trans List.perm_middle
  have hempty := hfold empty fun p _ => by simp [empty]
  rwa [empty, List.append_nil] at hempty

/-- The entries of a map make the map. -/
theorem ofList_entries (m : FieldMap α) : ofList m.entries = m :=
  eq_of_entries_eq ((ofList m.entries).sorted.eq_of_perm m.sorted
    (perm_entries_ofList m.sorted.nodup))

/-- Of pairs with one key the last is in the map that is made of them. -/
theorem get?_foldl_insert (m : FieldMap α) (pairs : List (String × α)) (key : String) :
    (pairs.foldl (fun m p => m.insert p.1 p.2) m).get? key =
      (pairs.reverse.lookup key).or (m.get? key) := by
  induction pairs generalizing m with
  | nil => rfl
  | cons p pairs ih =>
    rw [List.foldl_cons, ih, get?_insert, List.reverse_cons, List.lookup_append, Option.or_assoc]
    obtain ⟨k, a⟩ := p
    by_cases hkey : k = key
    · simp [hkey]
    · simp [List.lookup_cons, hkey, beq_eq_false_iff_ne.2 (Ne.symm hkey)]

/-- The last pair with a key is the first one of the reversed list. -/
theorem get?_ofList (pairs : List (String × α)) (key : String) :
    (ofList pairs).get? key = pairs.reverse.lookup key :=
  (get?_foldl_insert empty pairs key).trans (by rw [get?_empty, Option.or_none])

end FieldMap
end ScriptVM
