import ScriptVM.Builtin.Core
import ScriptVM.Container
import ScriptVM.Operator
import ScriptVM.Proofs.Walk

/-!
# Looking at related values

What is seen of values and their contents without telling objects apart by their indices. It is the
same for related values in related heaps.
-/

namespace ScriptVM

variable {ρ : Renaming} {v v' w w' : Value}

/-- Pairing never crosses kinds, so the name of a type tells nothing about the objects. -/
theorem Value.Related.typeName_eq (h : v.Related ρ v') : v.typeName = v'.typeName := by
  cases h <;> rfl

theorem Value.Related.isUndefined_eq (h : v.Related ρ v') : v.isUndefined = v'.isUndefined := by
  cases h <;> rfl

theorem Value.Related.isError_eq (h : v.Related ρ v') : v.isError = v'.isError := by
  cases h <;> rfl

theorem Value.Related.asNumber?_eq (h : v.Related ρ v') : v.asNumber? = v'.asNumber? := by
  cases h <;> rfl

/-- Only numbers and strings are ordered, and these are equal when they are related. -/
theorem Value.Related.compare?_eq (h : v.Related ρ v') (h' : w.Related ρ w') :
    v.compare? w = v'.compare? w' := by
  cases h <;> cases h' <;> rfl

/-- Two results that are alike: answers that `R` relates, or the same error. -/
inductive Alike {ε α β : Type} (R : α → β → Prop) : Except ε α → Except ε β → Prop where
  | ok {a : α} {b : β} (h : R a b) : Alike R (.ok a) (.ok b)
  | error (e : ε) : Alike R (.error e) (.error e)

/-- Errors are equal already, so only the answers matter. -/
theorem Alike.imp {ε α β : Type} {R S : α → β → Prop} {r : Except ε α} {r' : Except ε β}
    (h : Alike R r r') (hRS : ∀ a b, R a b → S a b) : Alike S r r' := by
  cases h with
  | ok h => exact .ok (hRS _ _ h)
  | error e => exact .error e

theorem Operator.unary_of_not_number (op : Opcode) (h : v.asNumber? = none) :
    Operator.unary op v = .error (invalidUnary op v.typeName) := by
  unfold Operator.unary
  split <;> simp_all [Value.asNumber?]

/-- An operator that is applied to what is no number names the type in its fault, which is the same
on both sides. -/
theorem Operator.unary_related (op : Opcode) (h : v.Related ρ v') :
    Alike (Value.Related ρ) (Operator.unary op v) (Operator.unary op v') := by
  cases hn : v.asNumber? with
  | none =>
    rw [unary_of_not_number op hn, unary_of_not_number op (h.asNumber?_eq ▸ hn), h.typeName_eq]
    exact .error _
  | some x =>
    unfold Operator.unary
    cases h with
    | int n => split <;> first | exact .ok (.int _) | exact .ok (.float _) | exact .error _
    | float y => split <;> first | exact .ok (.int _) | exact .ok (.float _) | exact .error _
    | _ => cases hn

theorem Operator.order_related (op : Opcode) (h : v.Related ρ v') (h' : w.Related ρ w') :
    Operator.order op v w = Operator.order op v' w' := by
  unfold Operator.order invalidBinary
  rw [h.compare?_eq h', h.asNumber?_eq, h'.asNumber?_eq, h.typeName_eq, h'.typeName_eq]

namespace Heap

variable {h h' : Heap}

/-- Arrays that are paired hold related items, one by one, so they are equally long. -/
theorem Related.size_arrayAt (hr : Related ρ h h') {a b : ArrayRef}
    (hrel : ρ.rel .array a.index b.index) : (h.arrayAt a).size = (h'.arrayAt b).size := by
  have := (hr.contents hrel).length_eq
  simpa using this

theorem Related.size_mapAt (hr : Related ρ h h') {a b : MapRef}
    (hrel : ρ.rel .map a.index b.index) : (h.mapAt a).size = (h'.mapAt b).size :=
  (hr.contents hrel).length_eq

/-- Emptiness is all that the truth of a container depends on. -/
theorem isFalsy_related (hr : Related ρ h h') (hv : v.Related ρ v') :
    h.isFalsy v = h'.isFalsy v' := by
  cases hv with
  | array hrel => simp only [isFalsy, Array.isEmpty, hr.size_arrayAt hrel]
  | map hrel =>
    have hm : Fields.Related ρ (h.mapAt _).entries (h'.mapAt _).entries := hr.contents hrel
    simp only [isFalsy]
    rw [Bool.eq_iff_iff, List.isEmpty_iff, List.isEmpty_iff]
    constructor
    · intro hnil
      rw [hnil] at hm
      exact List.forall₂_nil_left_iff.1 hm
    · intro hnil
      rw [hnil] at hm
      exact List.forall₂_nil_right_iff.1 hm
  | _ => rfl

/-- Related fields have the same keys, so both sides find something or neither does. -/
theorem lookup_related {fs gs : List (String × Value)} (h : Fields.Related ρ fs gs) (key : String) :
    Option.Rel (Value.Related ρ) (FieldMap.lookup key fs) (FieldMap.lookup key gs) := by
  induction h with
  | nil => exact .none
  | @cons p q fs gs hp _ ih =>
    obtain ⟨k, v⟩ := p
    obtain ⟨l, w⟩ := q
    obtain ⟨rfl, hv⟩ : k = l ∧ v.Related ρ w := hp
    by_cases hk : k = key <;> simp only [FieldMap.lookup, hk, if_true, if_false]
    · exact .some hv
    · exact ih

/-- The new entry comes at the same place on both sides. -/
theorem insertEntry_related {fs gs : List (String × Value)} (h : Fields.Related ρ fs gs)
    (key : String) (hv : v.Related ρ v') :
    Fields.Related ρ (FieldMap.insertEntry key v fs) (FieldMap.insertEntry key v' gs) := by
  induction h with
  | nil => exact .cons ⟨rfl, hv⟩ .nil
  | @cons p q fs gs hp hrest ih =>
    obtain ⟨k, w⟩ := p
    obtain ⟨l, w'⟩ := q
    obtain ⟨rfl, hw⟩ : k = l ∧ w.Related ρ w' := hp
    simp only [FieldMap.insertEntry]
    split
    · exact .cons ⟨rfl, hv⟩ (.cons ⟨rfl, hw⟩ hrest)
    · split
      · exact .cons ⟨rfl, hv⟩ hrest
      · exact .cons ⟨rfl, hw⟩ ih

/-- What is missing on both sides reads as `undefined` on both. -/
theorem getD_related {o o' : Option Value} (h : Option.Rel (Value.Related ρ) o o') :
    (o.getD .undefined).Related ρ (o'.getD .undefined) := by
  cases h with
  | some h => exact h
  | none => exact .undefined

theorem getElem?_related {vs ws : List Value} (h : Values.Related ρ vs ws) (i : Nat) :
    Option.Rel (Value.Related ρ) vs[i]? ws[i]? := by
  induction h generalizing i with
  | nil => exact .none
  | cons h _ ih =>
    cases i with
    | zero => exact .some h
    | succ i => simpa using ih i

theorem set_related {vs ws : List Value} (h : Values.Related ρ vs ws) (i : Nat)
    (hv : v.Related ρ v') : Values.Related ρ (vs.set i v) (ws.set i v') := by
  induction h generalizing i with
  | nil => exact .nil
  | cons h hs ih =>
    cases i with
    | zero => exact .cons hv hs
    | succ i => exact .cons h (ih i)

theorem index_error_of_ne {payload : Value} {key : String} (hk : key ≠ "value") :
    h.index (.error payload) (.string key) = .error .invalidIndexOnError := by
  unfold index
  split <;> simp_all

/-- Reading a container gives related values, or the same fault. -/
theorem index_related (hr : Related ρ h h') (hv : v.Related ρ v') (hw : w.Related ρ w') :
    Alike (Value.Related ρ) (h.index v w) (h'.index v' w') := by
  cases hv with
  | array hrel =>
    cases hw with
    | int n =>
      refine .ok (getD_related ?_)
      cases position? n with
      | none => exact .none
      | some i => simpa using getElem?_related (hr.contents hrel) i
    | _ => exact .error _
  | map hrel =>
    cases hw with
    | string k => exact .ok (getD_related (lookup_related (hr.contents hrel) k))
    | _ => exact .error _
  | string s =>
    cases hw with
    | int n =>
      refine .ok ?_
      cases (position? n).bind (s.toList[·]?) with
      | none => exact .undefined
      | some c => exact .string _
    | _ => exact .error _
  | error hv =>
    cases hw with
    | string k =>
      by_cases hk : k = "value"
      · subst hk
        exact .ok hv
      · rw [index_error_of_ne hk, index_error_of_ne hk]
        exact .error _
    | _ => exact .error _
  | undefined => cases hw <;> exact .ok .undefined
  | _ => cases hw <;> exact .error _

end Heap

inductive Place.Related (ρ : Renaming) : Place → Place → Prop where
  | element {a b : ArrayRef} (h : ρ.rel .array a.index b.index) (i : Nat) :
    Related ρ (.element a i) (.element b i)
  | field {a b : MapRef} (h : ρ.rel .map a.index b.index) (key : String) :
    Related ρ (.field a key) (.field b key)

theorem Place.Related.mono {ρ' : Renaming} {p p' : Place} (h : p.Related ρ p') (hle : ρ ≤ ρ') :
    p.Related ρ' p' := by
  cases h with
  | element hrel i => exact .element (hle _ _ _ hrel) i
  | field hrel key => exact .field (hle _ _ _ hrel) key

namespace Heap

variable {h h' : Heap}

/-- A write goes to places that are paired, or is refused on both sides for the same reason. -/
theorem place_related (hr : Related ρ h h') (hv : v.Related ρ v') (hw : w.Related ρ w') :
    Alike (Place.Related ρ) (h.place v w) (h'.place v' w') := by
  cases hv with
  | array hrel =>
    cases hw with
    | int n =>
      simp only [place, hr.size_arrayAt hrel]
      cases position? n with
      | none => exact .error _
      | some i =>
        dsimp only
        split
        · exact .ok (.element hrel i)
        · exact .error _
    | _ => exact .error _
  | map hrel =>
    cases hw with
    | string k => exact .ok (.field hrel k)
    | _ => exact .error _
  | _ => cases hw <;> exact .error _

theorem sliceLength_related (hr : Related ρ h h') (hv : v.Related ρ v') :
    h.sliceLength v = h'.sliceLength v' := by
  cases hv with
  | array hrel => simp only [sliceLength, hr.size_arrayAt hrel]
  | _ => rfl

theorem lengthOf_related (hr : Related ρ h h') (hv : v.Related ρ v') :
    CoreBuiltin.lengthOf h v = CoreBuiltin.lengthOf h' v' := by
  cases hv with
  | array hrel => simp only [CoreBuiltin.lengthOf, hr.size_arrayAt hrel]
  | map hrel => simp only [CoreBuiltin.lengthOf, hr.size_mapAt hrel]
  | _ => rfl

end Heap

/-- The bounds of a slice are numbers, and their clamping sees the length alone. -/
theorem sliceBounds_related {low low' high high' : Value} (hv : v.Related ρ v')
    (hl : low.Related ρ low') (hh : high.Related ρ high') (length : Nat) :
    sliceBounds v low high length = sliceBounds v' low' high' length := by
  have hbound {b b' : Value} (hb : b.Related ρ b') (openEnd : Nat) :
      sliceBound v b openEnd length = sliceBound v' b' openEnd length := by
    unfold sliceBound wrongKey
    rw [hv.typeName_eq, hb.typeName_eq]
    cases hb <;> rfl
  unfold sliceBounds
  rw [hbound hl, hbound hh]

end ScriptVM
