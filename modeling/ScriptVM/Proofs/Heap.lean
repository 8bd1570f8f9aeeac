import ScriptVM.Container

/-!
# Reading what has been written

What each way of adding to a heap or writing to it does to what is read afterwards.
-/

namespace ScriptVM.Heap

variable {h : Heap}

/-! ## Adding

A new object has the first index that was free. What is read at any other is what was read before.
-/

/-- Only the new array is read differently. -/
@[simp] theorem arrayAt_addArray (items : Array Value) (ref : ArrayRef) :
    (h.addArray items).2.arrayAt ref =
      if ref.index = h.arrays.size then items else h.arrayAt ref := by
  simp only [addArray, arrayAt, Array.getD_eq_getD_getElem?, Array.getElem?_push]
  split <;> rfl

theorem arrayAt_addArray_new (h : Heap) (items : Array Value) :
    (h.addArray items).2.arrayAt (h.addArray items).1 = items :=
  (arrayAt_addArray ..).trans (if_pos rfl)

/-- Only the new map is read differently. -/
@[simp] theorem mapAt_addMap (fields : FieldMap Value) (ref : MapRef) :
    (h.addMap fields).2.mapAt ref = if ref.index = h.maps.size then fields else h.mapAt ref := by
  simp only [addMap, mapAt, Array.getD_eq_getD_getElem?, Array.getElem?_push]
  split <;> rfl

theorem mapAt_addMap_new (h : Heap) (fields : FieldMap Value) :
    (h.addMap fields).2.mapAt (h.addMap fields).1 = fields :=
  (mapAt_addMap ..).trans (if_pos rfl)

@[simp] theorem cellAt_addCell (v : Value) (ref : CellRef) :
    (h.addCell v).2.cellAt ref = if ref.index = h.cells.size then v else h.cellAt ref := by
  simp only [addCell, cellAt, Array.getD_eq_getD_getElem?, Array.getElem?_push]
  split <;> rfl

/-! ## Writing

A write to an object that is not there changes nothing, and reads of it go on giving nothing.
-/

/-- An index beyond the end of the array is not written to. -/
@[simp] theorem arrayAt_setElement (ref ref' : ArrayRef) (index : Nat) (v : Value) :
    (h.setElement ref index v).arrayAt ref' =
      if ref' = ref then (h.arrayAt ref).setIfInBounds index v else h.arrayAt ref' := by
  simp only [setElement, arrayAt, Array.getD_eq_getD_getElem?, Array.getElem?_modify]
  by_cases hr : ref' = ref
  · subst hr
    simp only [if_true]
    cases h.arrays[ref'.index]? <;> rfl
  · have hi : ¬ ref.index = ref'.index := fun hi => hr (by cases ref; cases ref'; cases hi; rfl)
    simp only [hr, hi, if_false]

@[simp] theorem mapAt_setField (ref ref' : MapRef) (key : String) (v : Value) :
    (h.setField ref key v).mapAt ref' =
      if ref' = ref ∧ ref.index < h.maps.size then (h.mapAt ref).insert key v
      else h.mapAt ref' := by
  simp only [setField, mapAt, Array.getD_eq_getD_getElem?, Array.getElem?_modify]
  by_cases hr : ref' = ref
  · subst hr
    by_cases hlt : ref'.index < h.maps.size
    · simp [hlt]
    · simp [hlt]
  · have hi : ¬ ref.index = ref'.index := fun hi => hr (by cases ref; cases ref'; cases hi; rfl)
    simp [hr, hi]

/-- A cell holds what was written last. -/
@[simp] theorem cellAt_setCell (ref ref' : CellRef) (v : Value) :
    (h.setCell ref v).cellAt ref' =
      if ref' = ref ∧ ref.index < h.cells.size then v else h.cellAt ref' := by
  simp only [setCell, cellAt, Array.getD_eq_getD_getElem?, Array.getElem?_setIfInBounds]
  by_cases hr : ref' = ref
  · subst hr
    by_cases hlt : ref'.index < h.cells.size
    · simp [hlt]
    · simp [hlt]
  · have hi : ¬ ref.index = ref'.index := fun hi => hr (by cases ref; cases ref'; cases hi; rfl)
    simp [hr, hi]

end ScriptVM.Heap
