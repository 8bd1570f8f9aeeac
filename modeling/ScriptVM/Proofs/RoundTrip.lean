import ScriptVM.Proofs.HostReading

/-!
# From host values to script values and back

A host value that has been made into a script value is read back as it was, under two conditions.
The type has to tell an absent value from a present one, which it does not where `undefined` stands
for both. And every size has to fit into the integers of scripts: sizes keep their bits, so the
larger half of them becomes negative, and a negative integer is not read as a size.
-/

namespace ScriptVM
namespace HostType

/-! ## What can be told when reading -/

/-- Whether `undefined` stands for a value of the type. -/
def hasUndefined : HostType → Bool
  | unit | value | option _ => true
  | _ => false

/-- No option in the type is of a type that has `undefined` itself. -/
def Reversible : HostType → Prop
  | option t => t.hasUndefined = false ∧ t.Reversible
  | list t | map t => t.Reversible
  | _ => True

/-- Whether all sizes in a host value are integers of scripts. -/
def sizesFit : (t : HostType) → t.Carrier → Bool
  | size, n => n.toNat ≤ Int64.maxValue.toInt
  | option t, some a => t.sizesFit a
  | list t, items => items.all t.sizesFit
  | map t, fields => (fields.entries.map Prod.snd).all t.sizesFit
  | _, _ => true

/-- What reading a host value back gives. -/
def readBack (t : HostType) (x : t.Carrier) : Except Fault t.Carrier :=
  if t.sizesFit x then .ok x else .error (.invalidArgumentType "value" "non-negative int" "int")

variable {t : HostType} {x : t.Carrier} {h : Heap} {v : Value}

/-- A present value is not mistaken for an absent one. -/
theorem ne_undefined_of_represents (ht : t.hasUndefined = false) (hv : t.Represents h x v) :
    v ≠ .undefined := by
  rintro rfl
  cases t with
  | unit | value | option _ => cases ht
  | list _ | map _ =>
    obtain ⟨_, heq, _⟩ := hv
    cases heq
  | _ => cases hv

/-- The sizes that keep their sign are those that fit. -/
theorem toInt64_nonneg_iff {n : UInt64} : 0 ≤ n.toInt64 ↔ n.toNat ≤ Int64.maxValue.toInt := by
  have hmax : Int64.maxValue.toInt = 9223372036854775807 := rfl
  rw [Int64.le_iff_toInt_le, hmax]
  show (0 : Int) ≤ n.toBitVec.toInt ↔ (n.toBitVec.toNat : Int) ≤ _
  rw [BitVec.toInt_eq_toNat_cond]
  split <;> omega

/-- An integer of 32 bits is in the range that reading asks for. -/
theorem int32_range (n : Int32) :
    Int32.minValue.toInt ≤ n.toInt64.toInt ∧ n.toInt64.toInt ≤ Int32.maxValue.toInt := by
  rw [Int32.toInt_toInt64]
  exact ⟨n.le_toInt, Int.le_of_lt_add_one n.toInt_lt⟩

/-! ## Reading back -/

/-- A list is read back if its elements are. -/
theorem mapM_ofValue_of_represents {xs : List t.Carrier} {vs : List Value}
    (hread : ∀ {x v}, t.Represents h x v → t.ofValue h v = t.readBack x)
    (hvs : List.Forall₂ (t.Represents h) xs vs) :
    vs.mapM (t.ofValue h) = (list t).readBack xs := by
  induction hvs with
  | nil => rfl
  | @cons x v xs vs hv _ ih =>
    rw [List.mapM_cons, hread hv, ih]
    cases hx : t.sizesFit x <;> cases hxs : xs.all t.sizesFit <;>
      simp [readBack, sizesFit, hx, hxs, bind, Except.bind, pure, Except.pure]

/-- What stands for a host value is read as it, if the sizes fit. -/
theorem ofValue_of_represents (ht : t.Reversible) (hv : t.Represents h x v) :
    t.ofValue h v = t.readBack x := by
  induction t generalizing v with
  | size =>
    cases hv
    by_cases hx : x.toNat ≤ Int64.maxValue.toInt
    · rw [ofValue, if_pos (toInt64_nonneg_iff.2 hx), UInt64.toUInt64_toInt64]
      exact (if_pos (decide_eq_true hx)).symm
    · rw [ofValue, if_neg fun hle => hx (toInt64_nonneg_iff.1 hle)]
      exact (if_neg fun hfits => hx (of_decide_eq_true hfits)).symm
  | int32 =>
    cases hv
    rw [ofValue, if_pos (int32_range x), Int32.toInt32_toInt64]
    rfl
  | option t ih =>
    cases x with
    | none =>
      cases hv
      rfl
    | some a =>
      rw [ofValue_option (ne_undefined_of_represents ht.1 hv), ih ht.2 hv]
      cases ha : t.sizesFit a <;> simp [readBack, sizesFit, ha, Except.map]
  | list t ih =>
    obtain ⟨ref, rfl, hitems⟩ := hv
    exact mapM_ofValue_of_represents (fun hv => ih ht hv) hitems
  | map t ih =>
    obtain ⟨ref, rfl, hkeys, hvalues⟩ := hv
    have hread := mapM_ofValue_of_represents (fun hv => ih ht hv) hvalues
    rw [ofValue]
    cases hx : (x.entries.map Prod.snd).all t.sizesFit with
    | true =>
      simp only [readBack, sizesFit, hx] at hread ⊢
      exact traverse_eq_ok_iff.2 ⟨hkeys.symm, hread⟩
    | false =>
      simp only [readBack, sizesFit, hx] at hread ⊢
      exact traverse_eq_error_iff.2 hread
  | _ =>
    cases hv
    rfl

/-- A host value of a reversible type can always be made into a script value. Whatever comes out of
it is read back as the host value if all sizes in it fit, and is refused if one does not. -/
theorem ofValue_toValue (ht : t.Reversible) (x : t.Carrier) (h : Heap) :
    (∃ v h', t.toValue x h = .ok v h' ∧ t.Makes x h v h') ∧
    ∀ v h', t.Makes x h v h' → t.ofValue h' v =
      if t.sizesFit x then .ok x
      else .error (.invalidArgumentType "value" "non-negative int" "int") :=
  ⟨exists_toValue t x h, fun _ _ hv => ofValue_of_represents ht hv.made.represents⟩

/-- A map of lists with an absent and a present size is read back. -/
theorem ofValue_toValue_sizes :
    let t := map (list (option size))
    let x : t.Carrier := .ofList [("a", [none, some 7])]
    t.Reversible ∧ ∃ v h', t.toValue x {} = .ok v h' ∧ t.ofValue h' v = .ok x := by
  intro t x
  have ht : t.Reversible := ⟨rfl, trivial⟩
  obtain ⟨⟨v, h', hv, hmakes⟩, hback⟩ := ofValue_toValue ht x {}
  exact ⟨ht, v, h', hv, hback v h' hmakes⟩

/-- The least size that does not fit becomes the least integer, which is not read back. -/
theorem ofValue_toValue_refused :
    ¬ ∃ v h', size.toValue 0x8000000000000000 {} = .ok v h' ∧
      size.ofValue h' v = .ok 0x8000000000000000 := by
  rintro ⟨v, h', hv, hback⟩
  cases hv
  have hnegative : ¬ (0 : Int64) ≤ (0x8000000000000000 : UInt64).toInt64 := by decide
  rw [ofValue, if_neg hnegative] at hback
  cases hback

end HostType
end ScriptVM
