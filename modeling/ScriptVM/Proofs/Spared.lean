import ScriptVM.Builtin.Core
import ScriptVM.Builtin.Sample
import ScriptVM.Operator
import ScriptVM.Proofs.Renaming

/-!
# Objects that are spared

What a machine does with values and containers adds objects to the heap, and only two operations
write to one that is there: assigning to a container, and setting a cell. `Spares` says that a
computation takes nothing from the heap and leaves some objects as they are, whether it ends with an
answer or with a fault.
-/

namespace ScriptVM

abbrev Objects := Kind → Nat → Prop

abbrev Objects.none : Objects := fun _ _ => False

/-- The heap that a computation leaves, with an answer or a fault. -/
def HeapM.after {α : Type} (x : HeapM α) (h : Heap) : Heap :=
  match x h with
  | .ok _ h' => h'
  | .error _ h' => h'

/-- No object has been taken away, and the objects of `K` hold what they held. -/
structure Heap.Kept (K : Objects) (h h' : Heap) : Prop where
  count : ∀ k, h.count k ≤ h'.count k
  same : ∀ k i, K k i → i < h.count k → h.Same h' k i

variable {α β : Type} {K : Objects}

namespace Heap

variable {h h' h'' : Heap} {k : Kind} {i : Nat}

theorem Kept.refl (h : Heap) : h.Kept K h := ⟨fun _ => Nat.le_refl _, fun _ _ _ _ => .refl ..⟩

/-- What is kept twice is kept. -/
theorem Kept.trans (hk : h.Kept K h') (hk' : h'.Kept K h'') : h.Kept K h'' := by
  constructor
  · intro k
    exact Nat.le_trans (hk.count k) (hk'.count k)
  · intro k i hi hlt
    exact (hk.same k i hi hlt).trans (hk'.same k i hi (Nat.lt_of_lt_of_le hlt (hk.count k)))

/-- Identities hold nothing. -/
theorem Kept.of_identities (hk : h.Kept .none h') (hK : ∀ k i, K k i → k = .identity) :
    h.Kept K h' := by
  refine ⟨hk.count, ?_⟩
  intro k i hi _
  rw [hK k i hi]
  trivial

/-- An addition leaves all other objects as they are. -/
theorem Adds.kept (hadd : Adds k h h') : h.Kept K h' := ⟨hadd.le, fun k i _ => hadd.same k i⟩

/-- Only the object that is written to must not be one of `K`. -/
theorem Sets.kept (hset : Sets k i h h') (hi : ¬ K k i) : h.Kept K h' := by
  constructor
  · intro k'
    exact Nat.le_of_eq (hset.count k').symm
  · intro k' i' hi' _
    apply hset.same
    by_contra hboth
    obtain ⟨hk, hi''⟩ := not_or.1 hboth
    rw [not_not.1 hk, not_not.1 hi''] at hi'
    exact hi hi'

end Heap

/-- The container that a value refers to, as an object. -/
def Value.object? : Value → Option (Kind × Nat)
  | .array ref => some (.array, ref.index)
  | .map ref => some (.map, ref.index)
  | _ => none

/-- A container is told by the object that it refers to. -/
theorem Value.eq_of_object? {v w : Value} {p : Kind × Nat} (hv : v.object? = some p)
    (hw : w.object? = some p) : v = w := by
  cases v with
  | array ref =>
    obtain ⟨i⟩ := ref
    cases hv
    cases w with
    | array ref' =>
      obtain ⟨i'⟩ := ref'
      cases hw
      rfl
    | _ => cases hw
  | map ref =>
    obtain ⟨i⟩ := ref
    cases hv
    cases w with
    | map ref' =>
      obtain ⟨i'⟩ := ref'
      cases hw
      rfl
    | _ => cases hw
  | _ => cases hv

def Place.object : Place → Kind × Nat
  | .element ref _ => (.array, ref.index)
  | .field ref _ => (.map, ref.index)

/-- A place of a value is in the container that the value refers to. -/
theorem Heap.object_of_place {h : Heap} {receiver key : Value} {place : Place}
    (hplace : h.place receiver key = .ok place) : receiver.object? = some place.object := by
  unfold Heap.place at hplace
  split at hplace
  · dsimp only at hplace
    split at hplace
    · split at hplace
      · cases hplace
        rfl
      · cases hplace
    · cases hplace
  · cases hplace
    rfl
  all_goals cases hplace

theorem Heap.sets_write (h : Heap) (v : Value) (place : Place) :
    Sets place.object.1 place.object.2 h (h.write v place) := by
  cases place with
  | element ref i => exact h.sets_setElement ref i v
  | field ref key => exact h.sets_setField ref key v

/-- The functions of the host take no object from the heap and leave those of `K` as they are. -/
def Host.Spares (K : Objects) (host : Host) : Prop :=
  ∀ f args, ∀ h : Heap, h.Kept K (HeapM.after (host f args) h)

namespace HeapM

/-- Whatever heap the computation begins with, it takes nothing from it and leaves the objects of
`K` as they are. -/
def Spares (K : Objects) (x : HeapM α) : Prop := ∀ h : Heap, h.Kept K (after x h)

/-! ## Sequencing -/

/-- The second part begins with a heap in which the objects are as they were. -/
theorem Spares.bind {x : HeapM α} {k : α → HeapM β} (hx : Spares K x)
    (hk : ∀ a, Spares K (k a)) : Spares K (x >>= k) := by
  intro h
  have hfirst := hx h
  simp only [after, Bind.bind, EStateM.bind] at hfirst ⊢
  cases hr : x h with
  | ok a h' =>
    rw [hr] at hfirst
    exact hfirst.trans (hk a h')
  | error e h' =>
    rw [hr] at hfirst
    exact hfirst

theorem spares_pure (a : α) : Spares K (pure a) := fun h => .refl h

theorem spares_throw (e : Fault) : Spares K (throw e : HeapM α) := fun h => .refl h

theorem spares_get : Spares K get := fun h => .refl h

/-- A check leaves the heap as it is. -/
theorem spares_ofExcept (r : Except Fault α) : Spares K (ofExcept r) := by
  cases r with
  | ok a => exact spares_pure a
  | error e => exact spares_throw e

/-! ## Additions

What adds to a heap may be used with any objects spared.
-/

theorem spares_newArray (items : Array Value) : Spares K (newArray items) :=
  fun h => (h.adds_addArray items).kept

theorem spares_newMap (fields : FieldMap Value) : Spares K (newMap fields) :=
  fun h => (h.adds_addMap fields).kept

theorem spares_newCell (v : Value) : Spares K (newCell v) := fun h => (h.adds_addCell v).kept

theorem spares_newFunction (f : Function) : Spares K (newFunction f) :=
  fun h => h.adds_addIdentity.kept

theorem spares_slice (receiver low high : Value) : Spares K (slice receiver low high) := by
  apply spares_get.bind
  intro h
  apply (spares_ofExcept _).bind
  intro length
  apply (spares_ofExcept _).bind
  rintro ⟨l, r⟩
  dsimp only
  split
  · exact spares_newArray _
  · exact spares_pure _
  · exact spares_pure _

/-- Operators look at their operands and may add one array. -/
theorem spares_binary (op : Opcode) (left right : Value) :
    Spares K (Operator.binary op left right) := by
  unfold Operator.binary
  split
  · exact (spares_ofExcept _).bind fun _ => spares_pure _
  split
  · split
    · exact spares_pure _
    · exact spares_throw _
  unfold Operator.onOthers
  split
  · exact spares_get.bind fun _ => spares_pure _
  · exact spares_get.bind fun _ => spares_newArray _
  · exact spares_throw _

/-! ## Writes -/

/-- The cell that is set must not be one of the objects that are spared. -/
theorem spares_setCell {c : CellRef} (hc : ¬ K .cell c.index) (v : Value) :
    Spares K (modify fun h => h.setCell c v) :=
  fun h : Heap => (h.sets_setCell c v).kept hc

/-- An assignment writes to the receiver, if it is a container. -/
theorem spares_assign {receiver : Value} (hr : ∀ k i, receiver.object? = some (k, i) → ¬ K k i)
    (key v : Value) : Spares K (assign receiver key v) := by
  apply spares_get.bind
  intro h
  cases hplace : h.place receiver key with
  | error e => exact spares_throw e
  | ok place =>
    have hspared : ¬ K place.object.1 place.object.2 := hr _ _ (Heap.object_of_place hplace)
    exact fun h => (h.sets_write v place).kept hspared

/-! ## Builtins

Copying reads containers and adds new ones. It is the only core builtin that walks.
-/

theorem spares_mapM {k : Value → HeapM Value} (hk : ∀ v, Spares K (k v)) (vs : List Value) :
    Spares K (vs.mapM k) := by
  induction vs with
  | nil =>
    rw [List.mapM_nil]
    exact spares_pure _
  | cons v vs ih =>
    rw [List.mapM_cons]
    exact (hk v).bind fun _ => ih.bind fun _ => spares_pure _

theorem spares_traverse {k : Value → HeapM Value} (hk : ∀ v, Spares K (k v))
    (fields : FieldMap Value) : Spares K (fields.traverse k) := by
  have hentries (entries : List (String × Value)) :
      Spares K (FieldMap.traverseEntries k entries) := by
    induction entries with
    | nil => exact spares_pure _
    | cons p entries ih => exact (hk p.2).bind fun _ => ih.bind fun _ => spares_pure _
  exact (hentries _).bind fun _ => spares_pure _

/-- By induction on the depth. -/
theorem spares_copyUpTo (depth : Nat) (path : List Container) (v : Value) :
    Spares K (v.copyUpTo depth path) := by
  have hwith {array : ArrayRef → HeapM Value} {map : MapRef → HeapM Value}
      (harray : ∀ ref, Spares K (array ref)) (hmap : ∀ ref, Spares K (map ref)) (v : Value) :
      Spares K (v.copyWith array map) := by
    induction v with
    | array ref => exact harray ref
    | map ref => exact hmap ref
    | error payload ih => exact ih.bind fun _ => spares_pure _
    | _ => exact spares_pure _
  induction depth generalizing path v with
  | zero => exact hwith (fun _ => spares_newArray _) (fun _ => spares_newMap _) v
  | succ depth ih =>
    apply hwith
    · intro ref
      split
      · exact spares_newArray _
      · exact spares_get.bind fun _ => (spares_mapM (fun v => ih _ v) _).bind fun _ =>
          spares_newArray _
    · intro ref
      split
      · exact spares_newMap _
      · exact spares_get.bind fun _ => (spares_traverse (fun v => ih _ v) _).bind fun _ =>
          spares_newMap _

/-- The core builtins write to nothing. -/
theorem spares_coreCall (b : CoreBuiltin) (args : List Value) : Spares K (b.call args) := by
  have hone : Spares K (ofExcept (CoreBuiltin.onlyArgument args)) := spares_ofExcept _
  cases b with
  | append =>
    show Spares K (CoreBuiltin.appendTo args)
    unfold CoreBuiltin.appendTo
    split
    · exact spares_throw _
    · exact spares_newArray _
    · exact spares_get.bind fun _ => spares_newArray _
    · exact spares_throw _
  | len =>
    exact hone.bind fun _ => spares_get.bind fun _ => (spares_ofExcept _).bind fun _ =>
      spares_pure _
  | copy => exact hone.bind fun v => spares_get.bind fun _ => spares_copyUpTo _ _ v
  | string => exact hone.bind fun _ => spares_get.bind fun _ => spares_pure _
  | int | typeName | isError => exact hone.bind fun _ => spares_pure _

/-- Whatever is called, the objects are spared if the host spares them. -/
theorem spares_call {host : Host} (hhost : host.Spares K) (b : Builtin) (args : List Value) :
    Spares K (b.call host args) := by
  cases b with
  | core b => exact spares_coreCall b args
  | host f => exact fun h => hhost f args h

end HeapM

/-- The sample host writes to nothing. -/
theorem spares_sampleHost (K : Objects) : sampleHost.Spares K := by
  intro f args h
  suffices hspares : HeapM.Spares K (sampleHost f args) from hspares h
  unfold sampleHost
  split
  · unfold SampleHost.Entry.call
    split
    · exact HeapM.spares_pure _
    · exact HeapM.spares_pure _
    · exact HeapM.spares_get.bind fun _ => HeapM.spares_pure _
    · exact HeapM.spares_throw _
    · exact HeapM.spares_pure _
    · exact HeapM.spares_newArray _
    · exact HeapM.spares_pure _
    · exact HeapM.spares_pure _
    · exact HeapM.spares_get.bind fun _ => HeapM.spares_throw _
    · exact (HeapM.spares_newArray _).bind fun _ => HeapM.spares_pure _
  · exact HeapM.spares_throw _

end ScriptVM
