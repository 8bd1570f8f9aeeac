import ScriptVM.Operator
import ScriptVM.Proofs.Contents

/-!
# Slices

An array is sliced by its elements and a string by its characters. Bounds are taken for positions
between the ends, and what lies between them is the slice. So two slices that meet at a bound make
up the whole, whatever the bound is.
-/

namespace ScriptVM

/-! ## Elements and bounds -/

/-- The elements of an array, or the characters of a string. -/
def Heap.elements? (h : Heap) : Value → Option (List Value)
  | .array ref => some (h.arrayAt ref).toList
  | .string s => some (s.toList.map fun c => .string (String.singleton c))
  | _ => none

/-- A bound of a slice. No number leaves the end open. -/
def Value.ofBound : Option Int64 → Value
  | none => .undefined
  | some k => .int k

/-- The position of a bound among so many elements. An open bound is the given end. -/
def clampBound (openEnd length : Nat) : Option Int64 → Nat
  | none => openEnd
  | some k => (max 0 (min k.toInt length)).toNat

/-- `y` in `h'` is what lies from `l` up to `r` in `x` in `h`. -/
structure Heap.Slices (h : Heap) (x : Value) (l r : Nat) (h' : Heap) (y : Value) : Prop where
  type : y.typeName = x.typeName
  elements : ∀ xs, h.elements? x = some xs → h'.elements? y = some ((xs.drop l).take (r - l))
  length : CoreBuiltin.len.call [y] h' = .ok (.int (Int64.ofNat (r - l))) h'
  inside : ∀ i j : Int64, 0 ≤ i.toInt → l + i.toInt < r → j.toInt = l + i.toInt →
    h'.index y (.int i) = h.index x (.int j)
  outside : ∀ i : Int64, ¬ (0 ≤ i.toInt ∧ l + i.toInt < r) → h'.index y (.int i) = .ok .undefined
  kept : ∀ k i, i < h.count k → h.Same h' k i
  has : h'.Has y
  new : ∀ ref, x = .array ref → y = .array ⟨h.count .array⟩

variable {h h' : Heap} {x y low high : Value} {xs ys : List Value} {l r : Nat}

/-! ## What elements tell

Arrays and strings are treated alike once their elements are listed. What is read, measured or cut
out of them is then read, measured or cut out of a list.
-/

namespace Heap

/-- Reading at an index outside gives `undefined`. -/
theorem index_of_elements (hx : h.elements? x = some xs) (i : Int64) :
    h.index x (.int i) = .ok (((position? i).bind (xs[·]?)).getD .undefined) := by
  cases x with
  | array ref =>
    cases hx
    simp [index]
  | string s =>
    cases hx
    cases hi : position? i <;> simp [index, hi]
  | _ => cases hx

theorem elements?_addArray (h : Heap) (items : Array Value) :
    (h.addArray items).2.elements? (.array (h.addArray items).1) = some items.toList := by
  rw [elements?, arrayAt_addArray_new]

/-- The elements are up to the object that the value refers to, if it refers to one. -/
theorem elements?_of_same (hsame : ∀ k i, x.object? = some (k, i) → h.Same h' k i) :
    h'.elements? x = h.elements? x := by
  cases x with
  | array ref =>
    have hitems : h'.arrayAt ref = h.arrayAt ref := hsame .array ref.index rfl
    rw [elements?, elements?, hitems]
  | _ => rfl

theorem lengthOf_of_elements (hx : h.elements? x = some xs) :
    CoreBuiltin.lengthOf h x = .ok xs.length := by
  cases x with
  | array ref =>
    cases hx
    simp [CoreBuiltin.lengthOf]
  | string s =>
    cases hx
    simp [CoreBuiltin.lengthOf, String.length_toList]
  | _ => cases hx

theorem sliceLength_of_elements (hx : h.elements? x = some xs) :
    h.sliceLength x = .ok xs.length := by
  cases x with
  | array ref =>
    cases hx
    simp [sliceLength]
  | string s =>
    cases hx
    simp [sliceLength, String.length_toList]
  | _ => cases hx

/-- A slice is told by its elements. -/
theorem slices_of_elements (hx : h.elements? x = some xs) (hr : r ≤ xs.length)
    (hy : h'.elements? y = some ((xs.drop l).take (r - l))) (htype : y.typeName = x.typeName)
    (hkept : ∀ k i, i < h.count k → h.Same h' k i) (hhas : h'.Has y)
    (hnew : ∀ ref, x = .array ref → y = .array ⟨h.count .array⟩) : h.Slices x l r h' y where
  type := htype
  elements _ hxs := by
    cases hx.symm.trans hxs
    exact hy
  length := by
    have hlength : ((xs.drop l).take (r - l)).length = r - l := by
      rw [List.length_take, List.length_drop]
      omega
    exact CoreBuiltin.call_len (hlength ▸ lengthOf_of_elements hy)
  inside i j hi hlt hj := by
    have hpi : position? i = some i.toInt.toNat := position?_eq_some_iff.2 (by omega)
    have hpj : position? j = some (l + i.toInt.toNat) := position?_eq_some_iff.2 (by omega)
    rw [index_of_elements hy, index_of_elements hx, hpi, hpj]
    simp only [Option.bind_some]
    rw [List.getElem?_take_of_lt (by omega), List.getElem?_drop]
  outside i hi := by
    rw [index_of_elements hy]
    cases hpi : position? i with
    | none => rfl
    | some p =>
      have hp := position?_eq_some_iff.1 hpi
      rw [Option.bind_some, List.getElem?_take_eq_none (by omega)]
      rfl
  kept := hkept
  has := hhas
  new := hnew

end Heap

/-! ## Slicing -/

namespace HeapM

/-- What lies between two positions. -/
def part (x : Value) (l r : Nat) : HeapM Value := do
  match x with
  | .array ref => newArray (((← get).arrayAt ref).extract l r)
  | .string s => return .string (String.ofList ((s.toList.drop l).take (r - l)))
  | _ => return .undefined

/-- The bounds are found first, and then the part between them is cut out. -/
theorem slice_eq (hx : h.elements? x = some xs) :
    slice x low high h = match sliceBounds x low high xs.length with
      | .ok (l, r) => part x l r h
      | .error e => .error e h := by
  unfold slice
  simp only [bind, EStateM.bind, Exec.get_eq, Heap.sliceLength_of_elements hx, ofExcept, pure,
    EStateM.pure]
  cases sliceBounds x low high xs.length with
  | error e => rfl
  | ok p => cases x <;> rfl

/-- There is a part for any two positions up to the end. -/
theorem exists_part (hx : h.elements? x = some xs) (hr : r ≤ xs.length) :
    ∃ y h', part x l r h = .ok y h' ∧ h.Slices x l r h' y := by
  cases x with
  | array ref =>
    show ∃ y h', newArray ((h.arrayAt ref).extract l r) h = .ok y h' ∧ _
    generalize hitems : (h.arrayAt ref).extract l r = items
    have hadds := h.adds_addArray items
    have hhas : (h.addArray items).2.Has (.array (h.addArray items).1) := by
      rintro k i ⟨⟩
      exact hadds.lt
    refine ⟨.array (h.addArray items).1, (h.addArray items).2, rfl,
      Heap.slices_of_elements hx hr ?_ rfl hadds.same hhas fun _ _ => rfl⟩
    cases hx
    rw [Heap.elements?_addArray, ← hitems, Array.toList_extract]
  | string s =>
    refine ⟨_, h, rfl,
      Heap.slices_of_elements hx hr ?_ rfl (fun k i _ => .refl h k i) nofun nofun⟩
    cases hx
    rw [Heap.elements?, String.toList_ofList, List.map_take, List.map_drop]
  | _ => cases hx

/-! ### Bounds -/

theorem sliceBound_ofBound (x : Value) (b : Option Int64) (openEnd length : Nat) :
    sliceBound x (.ofBound b) openEnd length = .ok (clampBound openEnd length b) := by
  cases b with
  | none => rfl
  | some k =>
    have hk : min k.toInt.toNat length = (max 0 (min k.toInt length)).toNat := by omega
    rw [Value.ofBound, sliceBound, clampBound, hk]

/-- What is neither an integer nor missing is refused as a bound. -/
theorem sliceBound_of_ne (hb : ∀ b, low ≠ .ofBound b) (openEnd length : Nat) :
    sliceBound x low openEnd length = .error (wrongKey x low) := by
  cases low with
  | undefined => exact absurd rfl (hb none)
  | int k => exact absurd rfl (hb (some k))
  | _ => rfl

/-- No bound lies beyond the end. -/
theorem clampBound_le {openEnd length : Nat} (h : openEnd ≤ length) (b : Option Int64) :
    clampBound openEnd length b ≤ length := by
  cases b with
  | none => exact h
  | some k =>
    rw [clampBound]
    omega

/-- Bounds are compared after they have been clamped. -/
theorem sliceBounds_ofBound (x : Value) (b b' : Option Int64) (length : Nat) :
    sliceBounds x (.ofBound b) (.ofBound b') length =
      if clampBound length length b' < clampBound 0 length b then
        .error (.invalidSliceIndex (clampBound 0 length b) (clampBound length length b'))
      else .ok (clampBound 0 length b, clampBound length length b') := by
  unfold sliceBounds
  rw [sliceBound_ofBound, sliceBound_ofBound]
  rfl

/-- With bounds that do not cross there is a slice. -/
theorem exists_slice (hx : h.elements? x = some xs) (b b' : Option Int64)
    (hl : clampBound 0 xs.length b = l) (hr : clampBound xs.length xs.length b' = r)
    (hle : l ≤ r) :
    ∃ y h', slice x (.ofBound b) (.ofBound b') h = .ok y h' ∧ h.Slices x l r h' y := by
  subst hl hr
  rw [slice_eq hx, sliceBounds_ofBound, if_neg (Nat.not_lt.2 hle)]
  exact exists_part hx (clampBound_le (Nat.le_refl _) b')

/-! ### Slices that meet -/

/-- Addition joins elements. -/
theorem exists_add (hx : h.elements? x = some xs) (hy : h.elements? y = some ys)
    (htype : x.typeName = y.typeName) : ∃ z h', Operator.binary .add x y h = .ok z h' ∧
      h'.elements? z = some (xs ++ ys) ∧ z.typeName = x.typeName := by
  cases x with
  | array ref =>
    cases y with
    | array ref' =>
      cases hx
      cases hy
      refine ⟨.array (h.addArray (h.arrayAt ref ++ h.arrayAt ref')).1,
        (h.addArray (h.arrayAt ref ++ h.arrayAt ref')).2, rfl, ?_, rfl⟩
      rw [Heap.elements?_addArray, Array.toList_append]
    | string s => simp [Value.typeName] at htype
    | _ => cases hy
  | string s =>
    cases y with
    | string s' =>
      cases hx
      cases hy
      refine ⟨_, _, rfl, ?_, rfl⟩
      rw [Heap.elements?, Heap.textOf, String.toList_append, List.map_append]
    | array ref => simp [Value.typeName] at htype
    | _ => cases hy
  | _ => cases hx

/-- Slices up to a bound and from it on, joined, have what the whole has. -/
theorem add_slices (hhas : h.Has x) (hx : h.elements? x = some xs) (k : Int64) :
    ∃ a h₁ b h₂ c h₃, slice x .undefined (.int k) h = .ok a h₁ ∧
      slice x (.int k) .undefined h₁ = .ok b h₂ ∧ Operator.binary .add a b h₂ = .ok c h₃ ∧
      h₃.elements? c = some xs ∧ c.typeName = x.typeName := by
  generalize hp : clampBound xs.length xs.length (some k) = p
  have hle : p ≤ xs.length := hp ▸ clampBound_le (Nat.le_refl _) (some k)
  obtain ⟨a, h₁, hfirst, ha⟩ := exists_slice hx none (some k) rfl hp p.zero_le
  -- The first slice leaves the whole as it is, so that the second one is of the same.
  have hx₁ : h₁.elements? x = some xs :=
    (Heap.elements?_of_same fun k i hi => ha.kept k i (hhas k i hi)).trans hx
  obtain ⟨b, h₂, hsecond, hb⟩ := exists_slice hx₁ (some k) none hp rfl hle
  have ha₂ : h₂.elements? a = some ((xs.drop 0).take (p - 0)) :=
    (Heap.elements?_of_same fun k i hi => hb.kept k i (ha.has k i hi)).trans (ha.elements xs hx)
  obtain ⟨c, h₃, hadd, hc, htype⟩ :=
    exists_add ha₂ (hb.elements xs hx₁) (ha.type.trans hb.type.symm)
  refine ⟨a, h₁, b, h₂, c, h₃, hfirst, hsecond, hadd, hc.trans ?_, htype.trans ha.type⟩
  have hrest : (xs.drop p).length = xs.length - p := List.length_drop
  rw [clampBound, List.drop_zero, Nat.sub_zero, ← hrest, List.take_length, List.take_append_drop]

/-- A slice is what lies between its bounds, which are taken for positions between the ends, and
slices that meet make up the whole. Bounds that cross are told, and so is the first bound that is
none. -/
theorem slice_exact (hhas : h.Has x) (hx : h.elements? x = some xs) :
    (∀ low high : Option Int64,
      let l := clampBound 0 xs.length low
      let r := clampBound xs.length xs.length high
      if l ≤ r then
        ∃ y h', slice x (.ofBound low) (.ofBound high) h = .ok y h' ∧ h.Slices x l r h' y
      else slice x (.ofBound low) (.ofBound high) h = .error (.invalidSliceIndex l r) h) ∧
    (∀ k : Int64, ∃ a h₁ b h₂ c h₃, slice x .undefined (.int k) h = .ok a h₁ ∧
      slice x (.int k) .undefined h₁ = .ok b h₂ ∧ Operator.binary .add a b h₂ = .ok c h₃ ∧
      h₃.elements? c = some xs ∧ c.typeName = x.typeName) ∧
    (∀ low high, (∀ b, low ≠ .ofBound b) →
      slice x low high h = .error (.invalidIndexType x.typeName low.typeName) h) ∧
    ∀ low high, (∀ b, high ≠ .ofBound b) →
      slice x (.ofBound low) high h = .error (.invalidIndexType x.typeName high.typeName) h := by
  refine ⟨fun low high => ?_, add_slices hhas hx, fun low high hlow => ?_, fun low high hhigh => ?_⟩
  · intro l r
    split <;> rename_i hle
    · exact exists_slice hx low high rfl rfl hle
    · rw [slice_eq hx, sliceBounds_ofBound, if_pos (Nat.lt_of_not_le hle)]
  · rw [slice_eq hx, sliceBounds, sliceBound_of_ne hlow]
    rfl
  · rw [slice_eq hx, sliceBounds, sliceBound_ofBound, sliceBound_of_ne hhigh]
    rfl

/-- A negative low bound is taken for the start. Bounds that cross are told as positions. -/
theorem slice_exact_array :
    let h : Heap := { arrays := #[#[.int 1, .int 2, .int 3]] }
    let x := Value.array ⟨0⟩
    (∃ y h', slice x (.int (-5)) (.int 2) h = .ok y h' ∧
      h'.elements? y = some [.int 1, .int 2] ∧ h'.index y (.int 2) = .ok .undefined) ∧
    slice x (.int 7) (.int 1) h = .error (.invalidSliceIndex 3 1) h ∧
    slice x .undefined (.bool true) h = .error (.invalidIndexType "array" "bool") h := by
  intro h x
  have hhas : h.Has x := by
    rintro k i ⟨⟩
    decide
  have hx : h.elements? x = some [.int 1, .int 2, .int 3] := rfl
  obtain ⟨hbounds, -, -, hwrong⟩ := slice_exact hhas hx
  refine ⟨?_, hbounds (some 7) (some 1), hwrong none (.bool true) (fun b => by cases b <;> nofun)⟩
  obtain ⟨y, h', hslice, hy⟩ := hbounds (some (-5)) (some 2)
  exact ⟨y, h', hslice, hy.elements _ hx, hy.outside 2 (by decide)⟩

end HeapM
end ScriptVM
