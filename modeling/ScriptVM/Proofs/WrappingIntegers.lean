import Mathlib.Data.Int.ModEq
import ScriptVM.Operator

/-!
# Integers wrap around

Integers are kept in 64 bits, read as signed. What an operator makes of them is what the exact
result is modulo `2 ^ 64`, and no other integer of 64 bits is.
-/

namespace ScriptVM.Operator

def onTwoIntegers : List Opcode :=
  [.add, .sub, .mul, .div, .rem, .bitAnd, .bitOr, .bitXor, .bitAndNot, .shl, .shr]

/-- An operator makes `n` of two integers, and does nothing else. -/
def Gives (op : Opcode) (a b n : Int64) : Prop :=
  ∀ h, binary op (.int a) (.int b) h = .ok (.int n) h

/-- Of all integers of 64 bits, `n` and no other is congruent to `z`. -/
def Wraps (z : Int) (n : Int64) : Prop := ∀ m : Int64, m.toInt ≡ z [ZMOD 2 ^ 64] ↔ m = n

variable {op : Opcode} {a b m n : Int64} {z : Int}

theorem binary_ints (op : Opcode) (a b : Int64) (h : Heap) :
    binary op (.int a) (.int b) h = match onInts op a b with
      | .ok n => .ok (.int n) h
      | .error e => .error e h := by
  simp only [binary, HeapM.ofExcept]
  cases onInts op a b <;> rfl

/-- The heap stays as it is, so the result is all there is to tell. -/
theorem gives_of_onInts (hop : onInts op a b = .ok n) : Gives op a b n := by
  intro h
  rw [binary_ints, hop]

/-! ## Congruence -/

/-- Different integers of 64 bits are not congruent. -/
theorem modEq_iff : m.toInt ≡ n.toInt [ZMOD 2 ^ 64] ↔ m = n := by
  constructor
  · intro hmn
    have hmod : m.toInt % 2 ^ 64 = n.toInt % 2 ^ 64 := hmn
    have := m.le_toInt
    have := m.toInt_lt
    have := n.le_toInt
    have := n.toInt_lt
    exact Int64.toInt_inj.1 (by omega)
  · rintro rfl
    rfl

/-- Being congruent is enough, as there is one such integer only. -/
theorem wraps_of_modEq (hn : n.toInt ≡ z [ZMOD 2 ^ 64]) : Wraps z n := by
  intro m
  rw [← modEq_iff]
  exact ⟨fun hm => hm.trans hn.symm, fun hm => hm.trans hn⟩

/-- Machine integers are defined by the representative around zero. -/
theorem wraps_of_bmod (hn : n.toInt = z.bmod (2 ^ 64)) : Wraps z n :=
  wraps_of_modEq (hn ▸ Int.bmod_emod)

/-! ## Division

The remainder has the sign of the dividend. That settles which of the quotients next to the exact
one it goes with.
-/

/-- The remainder is smaller than the divisor, whatever their signs. -/
theorem abs_toInt_rem_lt (hb : b.toInt ≠ 0) : |(a % b).toInt| < |b.toInt| := by
  rw [Int64.toInt_mod, Int.abs_eq_natAbs, Int.abs_eq_natAbs, Int.natAbs_tmod]
  have := Nat.mod_lt a.toInt.natAbs (Int.natAbs_pos.2 hb)
  omega

theorem sign_toInt_rem : (a % b).toInt = 0 ∨ (a % b).toInt.sign = a.toInt.sign := by
  rw [Int64.toInt_mod, Int.sign_tmod]
  by_cases hdvd : b.toInt ∣ a.toInt
  · exact .inl (Int.tmod_eq_zero_of_dvd hdvd)
  · exact .inr (if_neg hdvd)

/-- The quotient and the remainder make up the dividend, also where the quotient has wrapped. -/
theorem div_mul_add_rem (a b : Int64) : a / b * b + a % b = a := by
  rw [← modEq_iff]
  have hquotient : (a / b).toInt ≡ a.toInt.tdiv b.toInt [ZMOD 2 ^ 64] :=
    Int64.toInt_div a b ▸ Int.bmod_emod
  calc (a / b * b + a % b).toInt
      ≡ (a / b * b).toInt + (a % b).toInt [ZMOD 2 ^ 64] := Int64.toInt_add .. ▸ Int.bmod_emod
    _ ≡ (a / b).toInt * b.toInt + (a % b).toInt [ZMOD 2 ^ 64] :=
      .add_right _ (Int64.toInt_mul .. ▸ Int.bmod_emod)
    _ ≡ a.toInt.tdiv b.toInt * b.toInt + (a % b).toInt [ZMOD 2 ^ 64] :=
      .add_right _ (hquotient.mul_right _)
    _ = a.toInt := by rw [Int64.toInt_mod, Int.tdiv_mul_add_tmod]

/-! ## Shifts

A shift by all places or more is treated apart, because the machine's own shift looks only at the
lowest bits of its number of places.
-/

theorem negative_iff : b < 0 ↔ b.toInt < 0 := Int64.lt_iff_toInt_lt

theorem all_places_iff : 64 ≤ b ↔ 64 ≤ b.toInt := Int64.le_iff_toInt_le

/-- The number of places, where it is less than the number of bits. -/
theorem toNat_places (hb : 0 ≤ b.toInt) (hlt : b.toInt < 64) :
    (b.toBitVec.smod 64).toNat = b.toInt.toNat := by
  have hplaces : (b.toBitVec.smod 64).toInt = b.toInt := by
    rw [BitVec.toInt_smod, Int64.toInt_toBitVec]
    exact (Int.fmod_eq_emod_of_nonneg _ (by decide)).trans (Int.emod_eq_of_lt hb hlt)
  rw [BitVec.toInt_eq_toNat_cond] at hplaces
  have := (b.toBitVec.smod 64).isLt
  split at hplaces <;> omega

/-- From 64 places on, the power is a multiple of the modulus. -/
theorem shiftLeft_modEq (hb : 0 ≤ b.toInt) :
    (shiftLeft a b).toInt ≡ a.toInt * 2 ^ b.toInt.toNat [ZMOD 2 ^ 64] := by
  by_cases hall : 64 ≤ b.toInt
  · rw [shiftLeft, if_pos (all_places_iff.2 hall)]
    have hdvd : (2 ^ 64 : Int) ∣ a.toInt * 2 ^ b.toInt.toNat :=
      Dvd.dvd.mul_left (pow_dvd_pow 2 (by omega)) _
    exact (Int.modEq_zero_iff_dvd.2 hdvd).symm
  · rw [shiftLeft, if_neg (mt all_places_iff.1 hall), ← Int64.toInt_toBitVec,
      Int64.toBitVec_shiftLeft, BitVec.shiftLeft_eq', BitVec.toInt_shiftLeft,
      toNat_places hb (Int.not_le.1 hall), Nat.shiftLeft_eq, Nat.cast_mul, Nat.cast_pow]
    have hunsigned : a.toInt ≡ a.toBitVec.toNat [ZMOD 2 ^ 64] := by
      rw [← Int64.toInt_toBitVec, BitVec.toInt_eq_toNat_bmod]
      exact Int.bmod_emod
    exact Int.ModEq.trans Int.bmod_emod (hunsigned.symm.mul_right _)

/-- Shifting to the right rounds down, also when all places are shifted out. -/
theorem toInt_shiftRight (hb : 0 ≤ b.toInt) :
    (shiftRight a b).toInt = a.toInt.fdiv (2 ^ b.toInt.toNat) := by
  rw [Int.fdiv_eq_ediv_of_nonneg _ (Int.pow_nonneg (by decide))]
  by_cases hall : 64 ≤ b.toInt
  · rw [shiftRight, if_pos (all_places_iff.2 hall)]
    have hpow : (2 ^ 64 : Int) ≤ 2 ^ b.toInt.toNat := by
      exact_mod_cast Nat.pow_le_pow_right (by decide) (by omega : 64 ≤ b.toInt.toNat)
    have := a.le_toInt
    have := a.toInt_lt
    by_cases ha : a.toInt < 0
    · rw [if_pos (negative_iff.2 ha)]
      exact (Int.ediv_eq_neg_one_of_neg_of_le ha (by omega)).symm
    · rw [if_neg (mt negative_iff.1 ha)]
      exact (Int.ediv_eq_zero_of_lt (by omega) (by omega)).symm
  · rw [shiftRight, if_neg (mt all_places_iff.1 hall), ← Int64.toInt_toBitVec,
      Int64.toBitVec_shiftRight, BitVec.sshiftRight_eq', BitVec.toInt_sshiftRight,
      toNat_places hb (Int.not_le.1 hall), Int64.toInt_toBitVec, Int.shiftRight_eq_div_pow]
    rfl

/-! ## Bits -/

/-- The bits of `a` are those that `b` has too, and the others. -/
theorem and_or_andNot (a b : Int64) : a &&& b ||| a &&& ~~~b = a := by
  rw [← Int64.toBitVec_inj]
  ext i hi
  simp only [Int64.toBitVec_or, Int64.toBitVec_and, Int64.toBitVec_not, BitVec.getElem_or,
    BitVec.getElem_and, BitVec.getElem_not]
  cases a.toBitVec[i] <;> cases b.toBitVec[i] <;> rfl

/-- The bits that one of the two has, but not both. -/
theorem xor_eq (a b : Int64) : a ^^^ b = (a ||| b) &&& ~~~(a &&& b) := by
  rw [← Int64.toBitVec_inj]
  ext i hi
  simp only [Int64.toBitVec_xor, Int64.toBitVec_and, Int64.toBitVec_or, Int64.toBitVec_not,
    BitVec.getElem_xor, BitVec.getElem_and, BitVec.getElem_or, BitVec.getElem_not]
  cases a.toBitVec[i] <;> cases b.toBitVec[i] <;> rfl

/-! ## Faults -/

theorem checked_eq_error_iff {c : Prop} [Decidable c] {e f : Fault} :
    (if c then .error f else .ok n : Except Fault Int64) = .error e ↔ c ∧ e = f := by
  split <;> simp [*, eq_comm]

/-- Division by zero and shifts by negative numbers are faults, and nothing else is. -/
theorem onInts_eq_error_iff (hop : op ∈ onTwoIntegers) {e : Fault} :
    onInts op a b = .error e ↔
      (op = .div ∨ op = .rem) ∧ b.toInt = 0 ∧ e = .divisionByZero ∨
      (op = .shl ∨ op = .shr) ∧ b.toInt < 0 ∧
        e = .invalidOperator op.symbol "int" (some "negative int") := by
  have hzero : b = 0 ↔ b.toInt = 0 := Int64.toInt_inj.symm
  simp only [onTwoIntegers, List.mem_cons, List.not_mem_nil, or_false] at hop
  rcases hop with rfl | rfl | rfl | rfl | rfl | rfl | rfl | rfl | rfl | rfl | rfl
  all_goals simp [onInts, invalidBinary, hzero, negative_iff, checked_eq_error_iff]

/-- A fault leaves the heap as it was. -/
theorem binary_eq_error_iff {e : Fault} {h h' : Heap} :
    binary op (.int a) (.int b) h = .error e h' ↔ h' = h ∧ onInts op a b = .error e := by
  rw [binary_ints]
  cases onInts op a b <;> simp [eq_comm, and_comm]

/-! ## The laws -/

/-- Operators compute modulo `2 ^ 64`. Quotients are rounded towards zero, and make up the dividend
with the remainder even where they wrap. Shifts multiply and divide by powers of two, however large.
Only division by zero and shifts by negative numbers are faults. -/
theorem integers_wrap (a b : Int64) :
    (∃ n, Gives .add a b n ∧ Wraps (a.toInt + b.toInt) n) ∧
    (∃ n, Gives .sub a b n ∧ Wraps (a.toInt - b.toInt) n) ∧
    (∃ n, Gives .mul a b n ∧ Wraps (a.toInt * b.toInt) n) ∧
    (∃ n, unary .minus (.int a) = .ok (.int n) ∧ Wraps (-a.toInt) n) ∧
    (b.toInt ≠ 0 → ∃ q r p, Gives .div a b q ∧ Gives .rem a b r ∧
      Wraps (a.toInt.tdiv b.toInt) q ∧ |r.toInt| < |b.toInt| ∧
      (r.toInt = 0 ∨ r.toInt.sign = a.toInt.sign) ∧ Gives .mul q b p ∧ Gives .add p r a) ∧
    (0 ≤ b.toInt → ∃ l r, Gives .shl a b l ∧ Gives .shr a b r ∧
      Wraps (a.toInt * 2 ^ b.toInt.toNat) l ∧ r.toInt = a.toInt.fdiv (2 ^ b.toInt.toNat)) ∧
    (∃ x y, Gives .bitAnd a b x ∧ Gives .bitAndNot a b y ∧ Gives .bitOr x y a) ∧
    (∃ x y z, Gives .bitOr a b x ∧ Gives .bitAnd a b y ∧ Gives .bitAndNot x y z ∧
      Gives .bitXor a b z) ∧
    (∃ m n, unary .minus (.int a) = .ok (.int m) ∧ Gives .sub m 1 n ∧
      unary .bComplement (.int a) = .ok (.int n)) ∧
    ∀ op ∈ onTwoIntegers, ∀ e h h', binary op (.int a) (.int b) h = .error e h' ↔ h' = h ∧
      ((op = .div ∨ op = .rem) ∧ b.toInt = 0 ∧ e = .divisionByZero ∨
      (op = .shl ∨ op = .shr) ∧ b.toInt < 0 ∧
        e = .invalidOperator op.symbol "int" (some "negative int")) := by
  refine ⟨?_, ?_, ?_, ?_, ?_, ?_, ?_, ?_, ?_, ?_⟩
  · exact ⟨a + b, gives_of_onInts rfl, wraps_of_bmod (Int64.toInt_add a b)⟩
  · exact ⟨a - b, gives_of_onInts rfl, wraps_of_bmod (Int64.toInt_sub a b)⟩
  · exact ⟨a * b, gives_of_onInts rfl, wraps_of_bmod (Int64.toInt_mul a b)⟩
  · exact ⟨-a, rfl, wraps_of_bmod (Int64.toInt_neg a)⟩
  · intro hb
    have hne : b ≠ 0 := fun heq => hb (heq ▸ rfl)
    have hadd : Gives .add (a / b * b) (a % b) a :=
      gives_of_onInts (congrArg Except.ok (div_mul_add_rem a b))
    exact ⟨a / b, a % b, a / b * b, gives_of_onInts (if_neg hne), gives_of_onInts (if_neg hne),
      wraps_of_bmod (Int64.toInt_div a b), abs_toInt_rem_lt hb, sign_toInt_rem,
      gives_of_onInts rfl, hadd⟩
  · intro hb
    have hnot : ¬ b < 0 := fun hlt => Int.not_lt.2 hb (negative_iff.1 hlt)
    exact ⟨shiftLeft a b, shiftRight a b, gives_of_onInts (if_neg hnot),
      gives_of_onInts (if_neg hnot), wraps_of_modEq (shiftLeft_modEq hb), toInt_shiftRight hb⟩
  · have hor : Gives .bitOr (a &&& b) (a &&& ~~~b) a :=
      gives_of_onInts (congrArg Except.ok (and_or_andNot a b))
    exact ⟨a &&& b, a &&& ~~~b, gives_of_onInts rfl, gives_of_onInts rfl, hor⟩
  · have hxor : Gives .bitXor a b ((a ||| b) &&& ~~~(a &&& b)) :=
      gives_of_onInts (congrArg Except.ok (xor_eq a b))
    exact ⟨a ||| b, a &&& b, _, gives_of_onInts rfl, gives_of_onInts rfl, gives_of_onInts rfl, hxor⟩
  · have hcomplement : unary .bComplement (.int a) = .ok (.int (-a - 1)) :=
      congrArg (fun n => Except.ok (Value.int n)) (Int64.not_eq_neg_sub a)
    exact ⟨-a, -a - 1, rfl, gives_of_onInts rfl, hcomplement⟩
  · intro op hop e h h'
    rw [binary_eq_error_iff, onInts_eq_error_iff hop]

/-- The lowest integer divided by `-1` is the lowest integer again, and shifted to the right by 64
places it is `-1`. -/
theorem integers_wrap_lowest :
    (∃ q r p, Gives .div Int64.minValue (-1) q ∧ Gives .rem Int64.minValue (-1) r ∧
      Wraps (2 ^ 63) q ∧ r.toInt = 0 ∧ Gives .mul q (-1) p ∧ Gives .add p r Int64.minValue) ∧
    ∃ r, Gives .shr Int64.minValue 64 r ∧ r.toInt = -1 := by
  obtain ⟨-, -, -, -, hdivision, -⟩ := integers_wrap Int64.minValue (-1)
  obtain ⟨-, -, -, -, -, hshifts, -⟩ := integers_wrap Int64.minValue 64
  obtain ⟨q, r, p, hq, hr, hwraps, hlt, -, hp, hsum⟩ := hdivision (by decide)
  obtain ⟨_, s, -, hs, -, hfloor⟩ := hshifts (by decide)
  have hzero : r.toInt = 0 := Int.abs_lt_one_iff.1 hlt
  exact ⟨⟨q, r, p, hq, hr, hwraps, hzero, hp, hsum⟩, s, hs, hfloor.trans (by decide)⟩

end ScriptVM.Operator
