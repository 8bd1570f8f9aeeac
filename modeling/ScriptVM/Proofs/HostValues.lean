import ScriptVM.Embedding.Conversion
import ScriptVM.Proofs.Detachment
import ScriptVM.Proofs.Fields

/-!
# What host values become

A host value becomes a script value piece by piece, and each of its lists and maps becomes a new
container. `Represents` says which script values stand for a host value. `Made` adds that the
containers which stand for lists and maps have been built since, each of them for one place.

A map of the host need not yield its fields in the order of their keys, nor in the same order twice.
`Makes` therefore allows for every order. The script's map comes out the same, because its entries
are kept in the order of their keys.
-/

namespace ScriptVM

/-- Several host values have been converted one after the other. Of a single one, `R a h v h'` says
that `a` becomes `v` while the heap `h` becomes `h'`. -/
inductive Converted {α : Type} (R : α → Heap → Value → Heap → Prop) :
    List α → Heap → List Value → Heap → Prop where
  | nil (h : Heap) : Converted R [] h [] h
  | cons {a : α} {as : List α} {v : Value} {vs : List Value} {h h₁ h' : Heap} (first : R a h v h₁)
    (rest : Converted R as h₁ vs h') : Converted R (a :: as) h (v :: vs) h'

theorem HeapM.newArray_eq (items : Array Value) (h : Heap) :
    newArray items h = .ok (.array (h.addArray items).1) (h.addArray items).2 := rfl

theorem HeapM.newMap_eq (fields : FieldMap Value) (h : Heap) :
    newMap fields h = .ok (.map (h.addMap fields).1) (h.addMap fields).2 := rfl

namespace HostType

/-! ## Conversions -/

/-- The host value can become `v` while the heap `h` becomes `h'`. -/
def Makes : (t : HostType) → t.Carrier → Heap → Value → Heap → Prop
  | list t, items, h, v, h' =>
    ∃ vs h₁, Converted t.Makes items h vs h₁ ∧ HeapM.newArray vs.toArray h₁ = .ok v h'
  | map t, fields, h, v, h' =>
    -- The fields in the order in which they happen to come.
    ∃ entries : List (String × t.Carrier), entries.Perm fields.entries ∧
      ∃ vs h₁, Converted t.Makes (entries.map Prod.snd) h vs h₁ ∧
        HeapM.newMap (.ofList ((entries.map Prod.fst).zip vs)) h₁ = .ok v h'
  | option t, some a, h, v, h' => t.Makes a h v h'
  | t, x, h, v, h' => t.toValue x h = .ok v h'

/-- The script value stands for the host value. -/
def Represents (h : Heap) : (t : HostType) → t.Carrier → Value → Prop
  | unit, _, v => v = .undefined
  | bool, b, v => v = .bool b
  | int32, n, v => v = .int n.toInt64
  | int64, n, v => v = .int n
  | size, n, v => v = .int n.toInt64
  | float, x, v => v = .float x
  | string, s, v => v = .string s
  | value, u, v => v = u
  | option _, none, v => v = .undefined
  | option t, some a, v => t.Represents h a v
  | list t, items, v =>
    ∃ ref, v = .array ref ∧ List.Forall₂ (t.Represents h) items (h.arrayAt ref).toList
  | map t, fields, v =>
    ∃ ref, v = .map ref ∧ (h.mapAt ref).entries.map Prod.fst = fields.entries.map Prod.fst ∧
      List.Forall₂ (t.Represents h) (fields.entries.map Prod.snd)
        ((h.mapAt ref).entries.map Prod.snd)

/-- The containers that stand for lists and maps of the host, one as often as it does. What is in a
script value that is taken as it is does not count. -/
def built (h : Heap) : HostType → Value → List (Kind × Nat)
  | option t, v => t.built h v
  | list t, .array ref => (.array, ref.index) :: (h.arrayAt ref).toList.flatMap (t.built h)
  | map t, .map ref =>
    (.map, ref.index) :: ((h.mapAt ref).entries.map Prod.snd).flatMap (t.built h)
  | _, _ => []

/-- Between `h` and `h'` the value has been made, which stands for the host value. -/
structure Made (t : HostType) (x : t.Carrier) (h : Heap) (v : Value) (h' : Heap) : Prop where
  kept : h.Kept .all h'
  represents : t.Represents h' x v
  added : ∀ p ∈ t.built h' v, h.count p.1 ≤ p.2 ∧ p.2 < h'.count p.1
  once : (t.built h' v).Nodup

/-- The same of several values, made one after the other. -/
structure MadeAll (t : HostType) (xs : List t.Carrier) (h : Heap) (vs : List Value)
    (h' : Heap) : Prop where
  kept : h.Kept .all h'
  represents : List.Forall₂ (t.Represents h') xs vs
  added : ∀ p ∈ vs.flatMap (t.built h'), h.count p.1 ≤ p.2 ∧ p.2 < h'.count p.1
  once : (vs.flatMap (t.built h')).Nodup

variable {t : HostType} {x : t.Carrier} {xs : List t.Carrier} {h h₁ h' : Heap} {v : Value}
  {vs : List Value}

/-! ## What has been made stays

A script value that is taken as it is may hold containers that have been there before, and these are
not counted among what has been built.
-/

/-- What has been built stays as it is while other containers are added, and so the value goes on
standing for what it stands for. -/
def Lasts (t : HostType) (h h' : Heap) (v : Value) : Prop :=
  t.built h' v = t.built h v ∧ ∀ x, t.Represents h x v → t.Represents h' x v

/-- Several values last if each of them does. -/
theorem lasts_all (hvs : ∀ v ∈ vs, t.Lasts h h' v) :
    vs.flatMap (t.built h') = vs.flatMap (t.built h) ∧
      ∀ xs, List.Forall₂ (t.Represents h) xs vs → List.Forall₂ (t.Represents h') xs vs := by
  refine ⟨List.flatMap_congr fun v hv => (hvs v hv).1, fun xs hall => ?_⟩
  induction hall with
  | nil => exact .nil
  | @cons x v xs vs hx _ ih =>
    exact .cons ((hvs v List.mem_cons_self).2 x hx)
      (ih fun u hu => hvs u (List.mem_cons_of_mem v hu))

/-- What has been built lies below the counts of the heap, so nothing that is added later touches
it. -/
theorem lasts (hk : h.Kept .all h') (hv : ∀ p ∈ t.built h v, p.2 < h.count p.1) :
    t.Lasts h h' v := by
  induction t generalizing v with
  | option t ih =>
    refine ⟨(ih hv).1, fun x hx => ?_⟩
    cases x with
    | none => exact hx
    | some a => exact (ih hv).2 a hx
  | list t ih =>
    cases v with
    | array ref =>
      have hitems : h'.arrayAt ref = h.arrayAt ref :=
        hk.same .array ref.index trivial (hv _ List.mem_cons_self)
      have hlasts : ∀ u ∈ (h.arrayAt ref).toList, t.Lasts h h' u := fun u hu =>
        ih fun p hp => hv p (List.mem_cons_of_mem _ (List.mem_flatMap.2 ⟨u, hu, hp⟩))
      obtain ⟨hbuilt, hrepresents⟩ := lasts_all hlasts
      constructor
      · rw [built, built, hitems, hbuilt]
      · rintro items ⟨_, heq, hall⟩
        cases heq
        exact ⟨ref, rfl, hitems ▸ hrepresents items hall⟩
    | _ => exact ⟨rfl, fun _ ⟨_, heq, _⟩ => nomatch heq⟩
  | map t ih =>
    cases v with
    | map ref =>
      have hfields : h'.mapAt ref = h.mapAt ref :=
        hk.same .map ref.index trivial (hv _ List.mem_cons_self)
      have hlasts : ∀ u ∈ (h.mapAt ref).entries.map Prod.snd, t.Lasts h h' u := fun u hu =>
        ih fun p hp => hv p (List.mem_cons_of_mem _ (List.mem_flatMap.2 ⟨u, hu, hp⟩))
      obtain ⟨hbuilt, hrepresents⟩ := lasts_all hlasts
      constructor
      · rw [built, built, hfields, hbuilt]
      · rintro fields ⟨_, heq, hkeys, hall⟩
        cases heq
        exact ⟨ref, rfl, hfields ▸ ⟨hkeys, hrepresents _ hall⟩⟩
    | _ => exact ⟨rfl, fun _ ⟨_, heq, _⟩ => nomatch heq⟩
  | _ => exact ⟨rfl, fun _ hx => hx⟩

/-! ## Making values -/

theorem MadeAll.nil (h : Heap) : t.MadeAll [] h [] h where
  kept := .refl h
  represents := .nil
  added := by simp
  once := .nil

/-- The rest is made after the first one, and leaves it as it is. -/
theorem MadeAll.cons (hfirst : t.Made x h v h₁) (hrest : t.MadeAll xs h₁ vs h') :
    t.MadeAll (x :: xs) h (v :: vs) h' := by
  obtain ⟨hbuilt, hrepresents⟩ := lasts hrest.kept fun p hp => (hfirst.added p hp).2
  constructor
  case kept => exact hfirst.kept.trans hrest.kept
  case represents => exact .cons (hrepresents x hfirst.represents) hrest.represents
  case added =>
    intro p hp
    rw [List.flatMap_cons, List.mem_append, hbuilt] at hp
    rcases hp with hp | hp
    · have hrange := hfirst.added p hp
      exact ⟨hrange.1, Nat.lt_of_lt_of_le hrange.2 (hrest.kept.count p.1)⟩
    · have hrange := hrest.added p hp
      exact ⟨Nat.le_trans (hfirst.kept.count p.1) hrange.1, hrange.2⟩
  case once =>
    rw [List.flatMap_cons, hbuilt]
    refine List.Nodup.append hfirst.once hrest.once fun p hp hp' => ?_
    -- The first value was finished before the others were begun.
    exact Nat.not_lt_of_le (hrest.added p hp').1 (hfirst.added p hp).2

/-- By induction on the values, given that each of them is made as it should be. -/
theorem madeAll (hmade : ∀ x h v h', t.Makes x h v h' → t.Made x h v h')
    (hvs : Converted t.Makes xs h vs h') : t.MadeAll xs h vs h' := by
  induction hvs with
  | nil h => exact .nil h
  | cons first _ ih => exact .cons (hmade _ _ _ _ first) ih

/-- A container that is added to hold values that have been made is new, and occurs nowhere in
them. -/
theorem MadeAll.container {k : Kind} (hall : t.MadeAll xs h vs h₁) (hadd : Heap.Adds k h₁ h') :
    h.Kept .all h' ∧ List.Forall₂ (t.Represents h') xs vs ∧
      (∀ p ∈ (k, h₁.count k) :: vs.flatMap (t.built h'),
        h.count p.1 ≤ p.2 ∧ p.2 < h'.count p.1) ∧
      ((k, h₁.count k) :: vs.flatMap (t.built h')).Nodup := by
  have hkept : h₁.Kept .all h' := hadd.kept
  have hlasts : ∀ v ∈ vs, t.Lasts h₁ h' v := fun v hv =>
    lasts hkept fun p hp => (hall.added p (List.mem_flatMap.2 ⟨v, hv, hp⟩)).2
  obtain ⟨hbuilt, hrepresents⟩ := lasts_all hlasts
  rw [hbuilt]
  refine ⟨hall.kept.trans hkept, hrepresents xs hall.represents, ?_, ?_⟩
  · intro p hp
    rcases List.mem_cons.1 hp with rfl | hp
    · exact ⟨hall.kept.count k, hadd.lt⟩
    · have hrange := hall.added p hp
      exact ⟨hrange.1, Nat.lt_of_lt_of_le hrange.2 (hadd.le p.1)⟩
  · refine List.nodup_cons.2 ⟨fun hp => ?_, hall.once⟩
    exact Nat.lt_irrefl _ (hall.added _ hp).2

/-- Two lists of fields have the same keys and related values if their keys and their values do. -/
theorem forall₂_fields_iff {α β : Type} {R : α → β → Prop} {as : List (String × α)}
    {bs : List (String × β)} :
    List.Forall₂ (fun p q => p.1 = q.1 ∧ R p.2 q.2) as bs ↔
      bs.map Prod.fst = as.map Prod.fst ∧ List.Forall₂ R (as.map Prod.snd) (bs.map Prod.snd) := by
  induction as generalizing bs with
  | nil => cases bs <;> simp
  | cons p as ih =>
    cases bs with
    | nil => simp
    | cons q bs =>
      simp only [List.forall₂_cons, List.map_cons, List.cons.injEq, ih]
      grind

/-- Pairs of the keys of a map, in whatever order, and of values that stand for what it holds, make
a map of these values with the same keys, where they stand for what it holds. -/
theorem represents_ofList {fields : FieldMap t.Carrier} {entries : List (String × t.Carrier)}
    (hperm : entries.Perm fields.entries)
    (hvs : List.Forall₂ (t.Represents h) (entries.map Prod.snd) vs) {new : FieldMap Value}
    (hnew : FieldMap.ofList ((entries.map Prod.fst).zip vs) = new) :
    (new.entries.map Prod.snd).Perm vs ∧
      new.entries.map Prod.fst = fields.entries.map Prod.fst ∧
      List.Forall₂ (t.Represents h) (fields.entries.map Prod.snd) (new.entries.map Prod.snd) := by
  have hlength : (entries.map Prod.fst).length = vs.length := by
    rw [← hvs.length_eq, List.length_map, List.length_map]
  have hkeys : ((entries.map Prod.fst).zip vs).map Prod.fst = entries.map Prod.fst :=
    List.map_fst_zip (Nat.le_of_eq hlength)
  have hvalues : ((entries.map Prod.fst).zip vs).map Prod.snd = vs :=
    List.map_snd_zip (Nat.le_of_eq hlength.symm)
  generalize (entries.map Prod.fst).zip vs = pairs at hkeys hvalues hnew
  subst hvalues hnew
  have hnodup : (pairs.map Prod.fst).Nodup := by
    rw [hkeys]
    exact (hperm.map Prod.fst).nodup_iff.2 fields.sorted.nodup
  have hpairs := FieldMap.perm_entries_ofList hnodup
  refine ⟨hpairs.map Prod.snd, ?_⟩
  -- The pairs are put into the order of the fields, which is the only one for their keys.
  obtain ⟨l, hl, hlperm⟩ := List.perm_comp_forall₂ hperm.symm (forall₂_fields_iff.2 ⟨hkeys, hvs⟩)
  have hl := forall₂_fields_iff.1 hl
  have hsorted : KeysSorted l := FieldMap.keysSorted_of_keys_eq fields.sorted hl.1
  rw [(FieldMap.ofList pairs).sorted.eq_of_perm hsorted (hpairs.trans hlperm.symm)]
  exact hl

/-- Without an object there is no container that could have been built. -/
theorem built_of_no_object (hv : v.object? = none) : t.built h v = [] := by
  induction t with
  | option t ih => exact ih
  | list t _ => cases v <;> first | rfl | cases hv
  | map t _ => cases v <;> first | rfl | cases hv
  | _ => rfl

/-- A value that needs no container has been made without changing the heap. -/
theorem made_pure (hbuilt : t.built h v = []) (hv : t.Represents h x v) : t.Made x h v h where
  kept := .refl h
  represents := hv
  added := by simp [hbuilt]
  once := by simp [hbuilt]

/-- Whatever a host value becomes, it has been made of new containers and stands for the host
value. -/
theorem Makes.made (hx : t.Makes x h v h') : t.Made x h v h' := by
  -- A container is made after all that it holds, so that it is new to them as well.
  induction t generalizing h v h' with
  | list t ih =>
    obtain ⟨vs, h₁, hvs, heq⟩ := hx
    rw [HeapM.newArray_eq] at heq
    cases heq
    obtain ⟨hkept, hrepresents, hadded, honce⟩ :=
      (madeAll (fun _ _ _ _ => ih) hvs).container (h₁.adds_addArray vs.toArray)
    have hnew := h₁.arrayAt_addArray_new vs.toArray
    have hbuilt : (list t).built (h₁.addArray vs.toArray).2 (.array (h₁.addArray vs.toArray).1) =
        (.array, h₁.count .array) :: vs.flatMap (t.built (h₁.addArray vs.toArray).2) := by
      rw [built, hnew]
      rfl
    refine ⟨hkept, ⟨_, rfl, ?_⟩, hbuilt ▸ hadded, hbuilt ▸ honce⟩
    rw [hnew]
    exact hrepresents
  | map t ih =>
    obtain ⟨entries, hperm, vs, h₁, hvs, heq⟩ := hx
    rw [HeapM.newMap_eq] at heq
    cases heq
    generalize hfields : FieldMap.ofList ((entries.map Prod.fst).zip vs) = new
    obtain ⟨hkept, hrepresents, hadded, honce⟩ :=
      (madeAll (fun _ _ _ _ => ih) hvs).container (h₁.adds_addMap new)
    obtain ⟨hvalues, hall⟩ := represents_ofList hperm hrepresents hfields
    have hnew := h₁.mapAt_addMap_new new
    have hbuilt : ((map t).built (h₁.addMap new).2 (.map (h₁.addMap new).1)).Perm
        ((.map, h₁.count .map) :: vs.flatMap (t.built (h₁.addMap new).2)) := by
      rw [built, hnew]
      exact (hvalues.flatMap_right _).cons _
    refine ⟨hkept, ⟨_, rfl, ?_⟩, fun p hp => hadded p (hbuilt.mem_iff.1 hp),
      hbuilt.nodup_iff.2 honce⟩
    rw [hnew]
    exact hall
  | option t ih =>
    cases x with
    | none =>
      cases hx
      exact made_pure (built_of_no_object rfl) rfl
    | some a =>
      have hmade := ih hx
      exact ⟨hmade.kept, hmade.represents, hmade.added, hmade.once⟩
  | _ =>
    cases hx
    exact made_pure rfl rfl

/-! ## The conversion that is run -/

/-- A conversion that always has a result has one for each of several values. -/
theorem converted_mapM {k : t.Carrier → HeapM Value} {R : t.Carrier → Heap → Value → Heap → Prop}
    (hk : ∀ x h, ∃ v h', k x h = .ok v h' ∧ R x h v h') (xs : List t.Carrier) (h : Heap) :
    ∃ vs h', xs.mapM k h = .ok vs h' ∧ Converted R xs h vs h' := by
  induction xs generalizing h with
  | nil => exact ⟨[], h, rfl, .nil h⟩
  | cons x xs ih =>
    obtain ⟨v, h₁, hv, hfirst⟩ := hk x h
    obtain ⟨vs, h', hvs, hrest⟩ := ih h₁
    refine ⟨v :: vs, h', ?_, .cons hfirst hrest⟩
    rw [List.mapM_cons, HeapM.bind_of_ok hv, HeapM.bind_of_ok hvs]
    rfl

/-- A conversion always has a result, which is one of those that the host value can become. -/
theorem exists_toValue (t : HostType) (x : t.Carrier) (h : Heap) :
    ∃ v h', t.toValue x h = .ok v h' ∧ t.Makes x h v h' := by
  induction t generalizing h with
  | list t ih =>
    obtain ⟨vs, h₁, hvs, hall⟩ := converted_mapM (fun x h => ih x h) x h
    refine ⟨_, _, ?_, vs, h₁, hall, rfl⟩
    rw [toValue, HeapM.bind_of_ok hvs]
    rfl
  | map t ih =>
    obtain ⟨vs, h₁, hvs, hall⟩ := converted_mapM (fun x h => ih x h) (x.entries.map Prod.snd) h
    obtain ⟨new, hnew, hkeys, rfl⟩ := HeapM.traverse_of_mapM hvs
    have hzip : new.entries = (x.entries.map Prod.fst).zip (new.entries.map Prod.snd) :=
      List.zip_of_prod hkeys rfl
    refine ⟨_, _, ?_, x.entries, .refl _, _, h₁, hall, rfl⟩
    rw [toValue, HeapM.bind_of_ok hnew, ← hzip, FieldMap.ofList_entries]
    rfl
  | option t ih =>
    cases x with
    | none => exact ⟨_, _, rfl, rfl⟩
    | some a => exact ih a h
  | _ => exact ⟨_, _, rfl, rfl⟩

end HostType
end ScriptVM
