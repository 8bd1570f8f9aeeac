import ScriptVM.Builtin.Core
import ScriptVM.Builtin.Sample
import ScriptVM.Operator
import ScriptVM.Proofs.Heap

/-!
# Regions of a heap

A region is a part of a heap, with all the objects that are still to come. It is closed when nothing
in it refers out of it. A computation that is given values of a closed region stays in it: its
results are of the region again, and outside of the region nothing changes. The region also says
which functions are allowed in it, so that what is known of all functions within reach is kept.
-/

namespace ScriptVM

/-! ## Reachability

What the heap holds is a graph, with the objects as its nodes. A region is drawn along its edges,
and what cannot be reached from anything in the region may as well not exist.
-/

/-- What can be got at from a value, through containers, errors and the cells of functions. -/
inductive Heap.Reaches (h : Heap) : Value → Value → Prop where
  | refl (v : Value) : Reaches h v v
  | element {ref : ArrayRef} {v w : Value} (hv : v ∈ h.arrayAt ref) (hw : Reaches h v w) :
    Reaches h (.array ref) w
  | field {ref : MapRef} {key : String} {v w : Value} (hv : (key, v) ∈ (h.mapAt ref).entries)
    (hw : Reaches h v w) : Reaches h (.map ref) w
  | payload {v w : Value} (hw : Reaches h v w) : Reaches h (.error v) w
  | cell {f : FunctionObject} {c : CellRef} {w : Value} (hc : c ∈ f.function.cells)
    (hw : Reaches h (h.cellAt c) w) : Reaches h (.function f) w

/-! ## Regions

Objects that come later are always of the region, so that a computation may make them. The heap as
it was before is kept beside, since "nothing changes outside" is said of it and not of the last
step.
-/

/-- A part of a heap, and the functions that are allowed in it. -/
structure Region where
  functions : Function → Prop
  arrays : ArrayRef → Prop
  maps : MapRef → Prop
  cells : CellRef → Prop

def Value.Within (S : Region) : Value → Prop
  | .array ref => S.arrays ref
  | .map ref => S.maps ref
  | .error payload => Within S payload
  | .function f => S.functions f.function ∧ ∀ c ∈ f.function.cells, S.cells c
  | _ => True

def Place.Within (S : Region) : Place → Prop
  | .element ref _ => S.arrays ref
  | .field ref _ => S.maps ref

/-- The region is closed in the heap, and outside of it the heap is as it was before. -/
structure Heap.Confined (h : Heap) (S : Region) (before : Heap) : Prop where
  arrays : ∀ ref, S.arrays ref → ∀ v ∈ h.arrayAt ref, v.Within S
  maps : ∀ ref, S.maps ref → ∀ p ∈ (h.mapAt ref).entries, p.2.Within S
  cells : ∀ ref, S.cells ref → (h.cellAt ref).Within S
  newArrays : ∀ ref : ArrayRef, h.arrays.size ≤ ref.index → S.arrays ref
  newMaps : ∀ ref : MapRef, h.maps.size ≤ ref.index → S.maps ref
  newCells : ∀ ref : CellRef, h.cells.size ≤ ref.index → S.cells ref
  sameArrays : ∀ ref, ¬ S.arrays ref → h.arrayAt ref = before.arrayAt ref
  sameMaps : ∀ ref, ¬ S.maps ref → h.mapAt ref = before.mapAt ref
  sameCells : ∀ ref, ¬ S.cells ref → h.cellAt ref = before.cellAt ref

variable {S : Region} {before h : Heap}

/-! ### The region of functions with a property -/

/-- Every function that can be got at from the value has the property. -/
def Heap.Only (h : Heap) (P : Function → Prop) (v : Value) : Prop :=
  ∀ g : FunctionObject, h.Reaches v (.function g) → P g.function

/-- The part of the heap from which only functions with the property can be got at. -/
def Heap.regionOf (h : Heap) (P : Function → Prop) : Region where
  functions := P
  arrays ref := h.Only P (.array ref)
  maps ref := h.Only P (.map ref)
  cells ref := h.Only P (h.cellAt ref)

section

variable {P : Function → Prop}

/-- A value is of the region of a property if every function that it leads to has the property. -/
theorem Heap.Only.within {v : Value} (hv : h.Only P v) : v.Within (h.regionOf P) := by
  induction v with
  | array ref => exact hv
  | map ref => exact hv
  | error payload ih => exact ih fun g hg => hv g (.payload hg)
  | function f => exact ⟨hv f (.refl _), fun c hc g hg => hv g (.cell hc hg)⟩
  | _ => trivial

/-- The region is closed, because whatever an object of it leads to is reached from it. -/
theorem Heap.confined_regionOf (h : Heap) (P : Function → Prop) :
    h.Confined (h.regionOf P) h where
  arrays ref hr v hv := Only.within fun g hg => hr g (.element hv hg)
  maps ref hr p hp := Only.within fun g hg => hr g (.field hp hg)
  cells ref hr := Only.within hr
  newArrays ref hle g hg := by
    have hempty : h.arrayAt ref = #[] := by
      simp [Heap.arrayAt, Array.getD_eq_getD_getElem?, Array.getElem?_eq_none hle]
    cases hg with
    | element hv _ => simp [hempty] at hv
  newMaps ref hle g hg := by
    have hempty : h.mapAt ref = FieldMap.empty := by
      simp [Heap.mapAt, Array.getD_eq_getD_getElem?, Array.getElem?_eq_none hle]
    cases hg with
    | field hv _ => simp [hempty, FieldMap.empty] at hv
  newCells ref hle g hg := by
    have hundefined : h.cellAt ref = .undefined := by
      simp [Heap.cellAt, Array.getD_eq_getD_getElem?, Array.getElem?_eq_none hle]
    rw [hundefined] at hg
    cases hg
  sameArrays _ _ := rfl
  sameMaps _ _ := rfl
  sameCells _ _ := rfl

end

namespace Heap.Confined

/-! ## Adding and writing

Each of these is one way in which a heap changes. A new object holds values of the region only, and
a write puts such a value into an object of the region, so no path leads out of it.
-/

/-- A new array is of the region if its items are. -/
theorem addArray (hh : h.Confined S before) {items : Array Value}
    (hi : ∀ v ∈ items, v.Within S) :
    S.arrays (h.addArray items).1 ∧ (h.addArray items).2.Confined S before := by
  have hnew : S.arrays ⟨h.arrays.size⟩ := hh.newArrays _ (Nat.le_refl _)
  refine ⟨hnew, { hh with arrays := ?_, newArrays := ?_, sameArrays := ?_ }⟩
  · intro ref hr v hv
    rw [arrayAt_addArray] at hv
    split at hv
    · exact hi v hv
    · exact hh.arrays ref hr v hv
  · intro ref hle
    have : h.arrays.size + 1 ≤ ref.index := by simpa [Heap.addArray] using hle
    exact hh.newArrays ref (by omega)
  · intro ref hr
    rw [arrayAt_addArray, if_neg]
    · exact hh.sameArrays ref hr
    · exact fun heq => hr (hh.newArrays ref (Nat.le_of_eq heq.symm))

theorem addMap (hh : h.Confined S before) {fields : FieldMap Value}
    (hi : ∀ p ∈ fields.entries, p.2.Within S) :
    S.maps (h.addMap fields).1 ∧ (h.addMap fields).2.Confined S before := by
  have hnew : S.maps ⟨h.maps.size⟩ := hh.newMaps _ (Nat.le_refl _)
  refine ⟨hnew, { hh with maps := ?_, newMaps := ?_, sameMaps := ?_ }⟩
  · intro ref hr v hv
    rw [mapAt_addMap] at hv
    split at hv
    · exact hi v hv
    · exact hh.maps ref hr v hv
  · intro ref hle
    have : h.maps.size + 1 ≤ ref.index := by simpa [Heap.addMap] using hle
    exact hh.newMaps ref (by omega)
  · intro ref hr
    rw [mapAt_addMap, if_neg]
    · exact hh.sameMaps ref hr
    · exact fun heq => hr (hh.newMaps ref (Nat.le_of_eq heq.symm))

theorem addCell (hh : h.Confined S before) {v : Value} (hv : v.Within S) :
    S.cells (h.addCell v).1 ∧ (h.addCell v).2.Confined S before := by
  have hnew : S.cells ⟨h.cells.size⟩ := hh.newCells _ (Nat.le_refl _)
  refine ⟨hnew, { hh with cells := ?_, newCells := ?_, sameCells := ?_ }⟩
  · intro ref hr
    rw [cellAt_addCell]
    split
    · exact hv
    · exact hh.cells ref hr
  · intro ref hle
    have : h.cells.size + 1 ≤ ref.index := by simpa [Heap.addCell] using hle
    exact hh.newCells ref (by omega)
  · intro ref hr
    rw [cellAt_addCell, if_neg]
    · exact hh.sameCells ref hr
    · exact fun heq => hr (hh.newCells ref (Nat.le_of_eq heq.symm))

/-- Only arrays of the region are written to, so the ones outside stay as they were. -/
theorem setElement (hh : h.Confined S before) {ref : ArrayRef} (hr : S.arrays ref) (index : Nat)
    {v : Value} (hv : v.Within S) : (h.setElement ref index v).Confined S before := by
  refine { hh with arrays := ?_, newArrays := ?_, sameArrays := ?_ }
  · intro ref' hr' w hw
    rw [arrayAt_setElement] at hw
    split at hw
    · rcases Array.mem_or_eq_of_mem_setIfInBounds hw with hw | rfl
      · exact hh.arrays ref hr w hw
      · exact hv
    · exact hh.arrays ref' hr' w hw
  · intro ref' hle
    exact hh.newArrays ref' (by simpa [Heap.setElement] using hle)
  · intro ref' hr'
    rw [arrayAt_setElement, if_neg]
    · exact hh.sameArrays ref' hr'
    · rintro rfl
      exact hr' hr

theorem setField (hh : h.Confined S before) {ref : MapRef} (hr : S.maps ref) (key : String)
    {v : Value} (hv : v.Within S) : (h.setField ref key v).Confined S before := by
  refine { hh with maps := ?_, newMaps := ?_, sameMaps := ?_ }
  · intro ref' hr' p hp
    rw [mapAt_setField] at hp
    split at hp
    · rcases FieldMap.mem_insertEntry hp with rfl | hp
      · exact hv
      · exact hh.maps ref hr p hp
    · exact hh.maps ref' hr' p hp
  · intro ref' hle
    exact hh.newMaps ref' (by simpa [Heap.setField] using hle)
  · intro ref' hr'
    rw [mapAt_setField, if_neg]
    · exact hh.sameMaps ref' hr'
    · rintro ⟨rfl, -⟩
      exact hr' hr

theorem setCell (hh : h.Confined S before) {ref : CellRef} (hr : S.cells ref)
    {v : Value} (hv : v.Within S) : (h.setCell ref v).Confined S before := by
  refine { hh with cells := ?_, newCells := ?_, sameCells := ?_ }
  · intro ref' hr'
    rw [cellAt_setCell]
    split
    · exact hv
    · exact hh.cells ref' hr'
  · intro ref' hle
    exact hh.newCells ref' (by simpa [Heap.setCell] using hle)
  · intro ref' hr'
    rw [cellAt_setCell, if_neg]
    · exact hh.sameCells ref' hr'
    · rintro ⟨rfl, -⟩
      exact hr' hr

theorem addIdentity (hh : h.Confined S before) : h.addIdentity.2.Confined S before := { hh with }

end Heap.Confined

/-! ## Computations

The laws of sequencing, once for all; what is built from computations that keep to the region keeps
to it as well.
-/

namespace HeapM

variable {α β : Type}

/-- Begun in the region, the computation ends in it, with an answer that has a property. -/
def Keeps (S : Region) (before : Heap) (x : HeapM α) (Q : α → Prop) : Prop :=
  ∀ h : Heap, h.Confined S before →
    match x h with
    | .ok a h => Q a ∧ h.Confined S before
    | .error _ h => h.Confined S before

variable {x : HeapM α} {k : α → HeapM β} {Q : α → Prop} {R : β → Prop}

/-- What the first computation answers with may be used by the second, since it is known to have
`Q`. -/
theorem Keeps.bind (hx : Keeps S before x Q) (hk : ∀ a, Q a → Keeps S before (k a) R) :
    Keeps S before (x >>= k) R := by
  intro h hh
  have hx := hx h hh
  simp only [Bind.bind, EStateM.bind]
  cases hr : x h with
  | ok a h' =>
    rw [hr] at hx
    exact hk a hx.1 h' hx.2
  | error e h' =>
    rw [hr] at hx
    exact hx

theorem keeps_pure {a : α} (ha : Q a) : Keeps S before (pure a) Q := fun _ hh => ⟨ha, hh⟩

theorem keeps_throw (e : Fault) : Keeps S before (throw e : HeapM α) Q := fun _ hh => hh

theorem keeps_get : Keeps S before get (Heap.Confined · S before) := fun _ hh => ⟨hh, hh⟩

theorem keeps_modify {f : Heap → Heap} (hf : ∀ h, h.Confined S before → (f h).Confined S before) :
    Keeps S before (modify f) fun _ => True := fun h hh => ⟨trivial, hf h hh⟩

/-- A check leaves the heap alone, so only its answer has to be looked at. -/
theorem keeps_ofExcept {r : Except Fault α} (hr : ∀ a, r = .ok a → Q a) :
    Keeps S before (ofExcept r) Q := by
  cases r with
  | ok a => exact keeps_pure (hr a rfl)
  | error e => exact keeps_throw e

theorem keeps_newArray {items : Array Value} (hi : ∀ v ∈ items, v.Within S) :
    Keeps S before (newArray items) (Value.Within S) := fun _ hh => hh.addArray hi

theorem keeps_newMap {fields : FieldMap Value} (hi : ∀ p ∈ fields.entries, p.2.Within S) :
    Keeps S before (newMap fields) (Value.Within S) := fun _ hh => hh.addMap hi

theorem keeps_newCell {v : Value} (hv : v.Within S) : Keeps S before (newCell v) S.cells :=
  fun _ hh => hh.addCell hv

theorem keeps_newFunction (f : Function) :
    Keeps S before (newFunction f) (fun o => o.function = f) := fun _ hh => ⟨rfl, hh.addIdentity⟩

/-! ## Lists of values -/

/-- What is done with each value of a list is done with all of them. -/
theorem keeps_mapM {k : Value → HeapM Value}
    (hk : ∀ v, v.Within S → Keeps S before (k v) (Value.Within S)) {vs : List Value}
    (hvs : ∀ v ∈ vs, v.Within S) :
    Keeps S before (vs.mapM k) (fun ws => ∀ w ∈ ws, w.Within S) := by
  induction vs with
  | nil =>
    rw [List.mapM_nil]
    exact keeps_pure (by simp)
  | cons v vs ih =>
    rw [List.mapM_cons]
    refine (hk v (hvs v (.head _))).bind fun w hw => ?_
    refine (ih fun u hu => hvs u (.tail _ hu)).bind fun ws hws => keeps_pure ?_
    intro u hu
    rcases List.mem_cons.1 hu with rfl | hu
    · exact hw
    · exact hws u hu

/-- The fields of a map are treated one by one, as a list is. -/
theorem keeps_traverse {k : Value → HeapM Value}
    (hk : ∀ v, v.Within S → Keeps S before (k v) (Value.Within S)) {fields : FieldMap Value}
    (hfields : ∀ p ∈ fields.entries, p.2.Within S) :
    Keeps S before (fields.traverse k) (fun new => ∀ p ∈ new.entries, p.2.Within S) := by
  have hentries : ∀ entries : List (String × Value), (∀ p ∈ entries, p.2.Within S) →
      Keeps S before (FieldMap.traverseEntries k entries) (fun r => ∀ p ∈ r.1, p.2.Within S) := by
    intro entries
    induction entries with
    | nil => exact fun _ => keeps_pure (by simp)
    | cons p entries ih =>
      intro hp
      refine (hk p.2 (hp p (.head _))).bind fun w hw => ?_
      refine (ih fun q hq => hp q (.tail _ hq)).bind fun r hr => keeps_pure ?_
      intro q hq
      rcases List.mem_cons.1 hq with rfl | hq
      · exact hw
      · exact hr q hq
  exact (hentries fields.entries hfields).bind fun r hr => keeps_pure hr

/-! ## Copies

A copy is made of new containers, which are of the region, and of what the old ones hold.
-/

/-- One level of a copy stays in the region if the copies of containers do. -/
theorem keeps_copyWith {array : ArrayRef → HeapM Value} {map : MapRef → HeapM Value}
    (harray : ∀ ref, S.arrays ref → Keeps S before (array ref) (Value.Within S))
    (hmap : ∀ ref, S.maps ref → Keeps S before (map ref) (Value.Within S)) {v : Value}
    (hv : v.Within S) : Keeps S before (v.copyWith array map) (Value.Within S) := by
  induction v with
  | array ref => exact harray ref hv
  | map ref => exact hmap ref hv
  | error payload ih => exact (ih hv).bind fun w hw => keeps_pure hw
  | _ => exact keeps_pure hv

/-- By induction on the depth. Below the last level there are empty containers only. -/
theorem keeps_copyUpTo (depth : Nat) (path : List Container) {v : Value} (hv : v.Within S) :
    Keeps S before (v.copyUpTo depth path) (Value.Within S) := by
  have harray : Keeps S before (newArray #[]) (Value.Within S) := keeps_newArray (by simp)
  have hmap : Keeps S before (newMap FieldMap.empty) (Value.Within S) :=
    keeps_newMap (by simp [FieldMap.empty])
  induction depth generalizing v path with
  | zero => exact keeps_copyWith (fun _ _ => harray) (fun _ _ => hmap) hv
  | succ depth ih =>
    refine keeps_copyWith (fun ref hr => ?_) (fun ref hr => ?_) hv
    · split
      · exact harray
      · refine keeps_get.bind fun h hh => ?_
        refine (keeps_mapM (fun v hv => ih _ hv) fun v hv => ?_).bind fun items hi => ?_
        · exact hh.arrays ref hr v (Array.mem_toList_iff.1 hv)
        · exact keeps_newArray fun v hv => hi v (by simpa using hv)
    · split
      · exact hmap
      · refine keeps_get.bind fun h hh => ?_
        refine (keeps_traverse (fun v hv => ih _ hv) fun p hp => ?_).bind fun fields hf => ?_
        · exact hh.maps ref hr p hp
        · exact keeps_newMap hf

theorem keeps_deepCopy {v : Value} (hv : v.Within S) :
    Keeps S before v.deepCopy (Value.Within S) :=
  keeps_get.bind fun _ _ => keeps_copyUpTo _ _ hv

/-! ## Operators and containers

Operators make at most a new container out of what two others hold. Looking something up needs no
object but the ones that are looked into.
-/

theorem keeps_onOthers (op : Opcode) {left right : Value} (hl : left.Within S)
    (hr : right.Within S) : Keeps S before (Operator.onOthers op left right) (Value.Within S) := by
  unfold Operator.onOthers
  split
  · exact keeps_get.bind fun _ _ => keeps_pure trivial
  · refine keeps_get.bind fun h hh => keeps_newArray fun v hv => ?_
    rcases Array.mem_append.1 hv with hv | hv
    · exact hh.arrays _ hl v hv
    · exact hh.arrays _ hr v hv
  · exact keeps_throw _

theorem keeps_binary (op : Opcode) {left right : Value} (hl : left.Within S)
    (hr : right.Within S) : Keeps S before (Operator.binary op left right) (Value.Within S) := by
  unfold Operator.binary
  split
  · exact (keeps_ofExcept (Q := fun _ => True) fun _ _ => trivial).bind fun _ _ =>
      keeps_pure trivial
  · split
    · split
      · exact keeps_pure trivial
      · exact keeps_throw _
    · exact keeps_onOthers op hl hr

/-- The results of these operators are numbers, which belong to every region. -/
theorem within_unary {op : Opcode} {v w : Value} (h : Operator.unary op v = .ok w) :
    w.Within S := by
  unfold Operator.unary at h
  split at h <;> cases h <;> trivial

/-- What is found in a container of a closed region is of the region. -/
theorem within_index {h : Heap} (hh : h.Confined S before) {receiver key v : Value}
    (hr : receiver.Within S) (hv : h.index receiver key = .ok v) : v.Within S := by
  unfold Heap.index at hv
  split at hv
  · rename_i ref n
    cases hv
    cases hp : position? n with
    | none => trivial
    | some i =>
      simp only [Option.bind_some]
      cases hi : (h.arrayAt ref)[i]? with
      | none => trivial
      | some v => exact hh.arrays ref hr v (Array.mem_of_getElem? hi)
  · rename_i ref key
    cases hv
    cases hk : (h.mapAt ref).get? key with
    | none => trivial
    | some v => exact hh.maps ref hr _ (FieldMap.mem_of_lookup hk)
  · rename_i str n
    cases hv
    cases (position? n).bind (str.toList[·]?) <;> trivial
  · cases hv
    exact hr
  · cases hv
  · cases hv
  · cases hv
  · cases hv
  · cases hv
    trivial
  · cases hv

/-- The container that is written to is the receiver, and so of the region. -/
theorem keeps_assign {receiver key v : Value} (hr : receiver.Within S) (hv : v.Within S) :
    Keeps S before (assign receiver key v) fun _ => True := by
  refine keeps_get.bind fun h _ => ?_
  refine (keeps_ofExcept (Q := Place.Within S) ?_).bind fun p hp => ?_
  · intro p hp
    unfold Heap.place at hp
    split at hp
    · dsimp only at hp
      split at hp
      · split at hp
        · cases hp
          exact hr
        · cases hp
      · cases hp
    · cases hp
      exact hr
    all_goals cases hp
  · cases p with
    | element ref i => exact keeps_modify fun h hh => hh.setElement hp i hv
    | field ref key => exact keeps_modify fun h hh => hh.setField hp key hv

theorem keeps_slice {receiver low high : Value} (hr : receiver.Within S) :
    Keeps S before (slice receiver low high) (Value.Within S) := by
  refine keeps_get.bind fun h hh => ?_
  refine (keeps_ofExcept (Q := fun _ => True) fun _ _ => trivial).bind fun length _ => ?_
  refine (keeps_ofExcept (Q := fun _ => True) fun _ _ => trivial).bind fun bounds _ => ?_
  obtain ⟨l, r⟩ := bounds
  dsimp only
  split
  · refine keeps_newArray fun v hv => hh.arrays _ hr v ?_
    obtain ⟨i, hi, heq⟩ := Array.mem_extract_iff_getElem.1 hv
    exact heq ▸ Array.getElem_mem _
  · exact keeps_pure trivial
  · exact keeps_pure trivial

/-! ## Builtins

The core builtins are known, and stay in every region. What the host's functions do is up to the
host, which is assumed to respect the region at hand.
-/

theorem keeps_onlyArgument {args : List Value} (ha : ∀ v ∈ args, v.Within S) :
    Keeps S before (ofExcept (CoreBuiltin.onlyArgument args)) (Value.Within S) := by
  refine keeps_ofExcept fun v hv => ?_
  unfold CoreBuiltin.onlyArgument at hv
  split at hv
  · cases hv
    exact ha _ (.head _)
  · cases hv

theorem keeps_appendTo {args : List Value} (ha : ∀ v ∈ args, v.Within S) :
    Keeps S before (CoreBuiltin.appendTo args) (Value.Within S) := by
  unfold CoreBuiltin.appendTo
  split
  · exact keeps_throw _
  · exact keeps_newArray fun v hv => ha v (List.mem_cons_of_mem _ (by simpa using hv))
  · refine keeps_get.bind fun h hh => keeps_newArray fun v hv => ?_
    rcases Array.mem_append.1 hv with hv | hv
    · exact hh.arrays _ (ha _ (.head _)) v hv
    · exact ha v (List.mem_cons_of_mem _ (by simpa using hv))
  · exact keeps_throw _

/-- A core builtin has nothing to work on but its arguments. -/
theorem keeps_coreCall (b : CoreBuiltin) {args : List Value} (ha : ∀ v ∈ args, v.Within S) :
    Keeps S before (b.call args) (Value.Within S) := by
  have hone : Keeps S before (ofExcept (CoreBuiltin.onlyArgument args)) (Value.Within S) :=
    keeps_onlyArgument ha
  cases b with
  | append => exact keeps_appendTo ha
  | len =>
    refine hone.bind fun v _ => keeps_get.bind fun h _ => ?_
    exact (keeps_ofExcept (Q := fun _ => True) fun _ _ => trivial).bind fun _ _ =>
      keeps_pure trivial
  | copy => exact hone.bind fun v hv => keeps_deepCopy hv
  | string =>
    refine hone.bind fun v _ => keeps_get.bind fun h _ => keeps_pure ?_
    unfold CoreBuiltin.toText
    split <;> trivial
  | int =>
    refine hone.bind fun v _ => keeps_pure ?_
    unfold CoreBuiltin.toInt
    split <;> (try split) <;> trivial
  | typeName => exact hone.bind fun _ _ => keeps_pure trivial
  | isError => exact hone.bind fun _ _ => keeps_pure trivial

def HostKeeps (S : Region) (host : Host) : Prop :=
  ∀ f before args, (∀ v ∈ args, v.Within S) → Keeps S before (host f args) (Value.Within S)

/-- A builtin stays in the region that its arguments are of, provided that the host's functions
do. -/
theorem keeps_call {host : Host} (hhost : HostKeeps S host) (b : Builtin) {args : List Value}
    (ha : ∀ v ∈ args, v.Within S) : Keeps S before (b.call host args) (Value.Within S) := by
  cases b with
  | core b => exact keeps_coreCall b ha
  | host f => exact hhost f before args ha

/-- The sample host stays in every region. -/
theorem hostKeeps_sampleHost (S : Region) : HostKeeps S sampleHost := by
  intro f before args ha
  have hnew : Keeps S before (newArray args.toArray) (Value.Within S) :=
    keeps_newArray fun v hv => ha v (by simpa using hv)
  unfold sampleHost
  split
  · unfold SampleHost.Entry.call
    split
    · exact keeps_pure trivial
    · exact keeps_pure trivial
    · exact keeps_get.bind fun _ _ => keeps_pure trivial
    · exact keeps_throw _
    · exact keeps_pure trivial
    · exact hnew
    · exact keeps_pure (ha _ (.head _))
    · exact keeps_pure trivial
    · exact keeps_get.bind fun _ _ => keeps_throw _
    · exact hnew.bind fun v hv => keeps_pure hv
  · exact keeps_throw _

end HeapM
end ScriptVM
