import Mathlib.Data.Int.ModEq
import Mathlib.Data.List.TakeWhile
import ScriptVM.Builtin.Core
import ScriptVM.Operator
import ScriptVM.Proofs.Walk

/-!
# Integers as text

Reading an integer accepts a row of decimal digits, with at most one sign before it and blank
characters around it, if the number that it stands for fits into 64 bits. Writing an integer gives
one such text, so what is written is read back.
-/

namespace ScriptVM

/-! ## Blank ends

Trimming is told by its result: a text without blank ends, with nothing but blank characters taken
off on either side.
-/

/-- A text and what is left of it without the blank characters at its ends. -/
structure Text.Trimmed (cs ds : List Char) : Prop where
  around : ∃ front back, (∀ c ∈ front, isBlank c = true) ∧ (∀ c ∈ back, isBlank c = true) ∧
    cs = front ++ ds ++ back
  first : ∀ c ∈ ds.head?, isBlank c = false
  last : ∀ c ∈ ds.getLast?, isBlank c = false

namespace Text

variable {cs ds : List Char}

theorem takeWhile_append_trimStart (cs : List Char) :
    cs.takeWhile isBlank ++ trimStart cs = cs :=
  List.takeWhile_append_dropWhile

theorem head?_trimStart (cs : List Char) : ∀ c ∈ (trimStart cs).head?, isBlank c = false := by
  intro c hc
  have hnot := List.head?_dropWhile_not isBlank cs
  rwa [show (cs.dropWhile isBlank).head? = some c from hc] at hnot

/-- Blank characters go from the front up to a character that is not blank. -/
theorem trimStart_append {front : List Char} (hfront : ∀ c ∈ front, isBlank c = true)
    (hfirst : ∀ c ∈ cs.head?, isBlank c = false) : trimStart (front ++ cs) = cs := by
  rw [trimStart, List.dropWhile_append_of_pos hfront]
  cases cs with
  | nil => rfl
  | cons c cs => exact List.dropWhile_cons_of_neg (Bool.eq_false_iff.1 (hfirst c rfl))

theorem trim_of_blank (hcs : ∀ c ∈ cs, isBlank c = true) : trim cs = [] := by
  have hnil : trimStart cs = [] := List.dropWhile_eq_nil_iff.2 hcs
  rw [trim, hnil]
  rfl

/-- The characters come off at the front, and off the reversed rest at the front again. -/
theorem trimmed_trim (cs : List Char) : Trimmed cs (trim cs) := by
  have hrest : trimStart cs = trim cs ++ ((trimStart cs).reverse.takeWhile isBlank).reverse := by
    rw [trim, ← List.reverse_append, takeWhile_append_trimStart, List.reverse_reverse]
  have hblank {l : List Char} {c : Char} (hc : c ∈ l.takeWhile isBlank) : isBlank c = true :=
    List.mem_takeWhile_imp hc
  constructor
  case around =>
    refine ⟨cs.takeWhile isBlank, ((trimStart cs).reverse.takeWhile isBlank).reverse,
      fun c => hblank, fun c hc => hblank (List.mem_reverse.1 hc), ?_⟩
    rw [List.append_assoc, ← hrest, takeWhile_append_trimStart]
  case first =>
    intro c hc
    refine head?_trimStart cs c ?_
    rw [hrest, List.head?_append, Option.mem_def.1 hc]
    rfl
  case last =>
    intro c hc
    rw [trim, List.getLast?_reverse] at hc
    exact head?_trimStart _ c hc

/-- There is only one text that is left. -/
theorem trim_eq_iff : trim cs = ds ↔ Trimmed cs ds := by
  constructor
  · rintro rfl
    exact trimmed_trim cs
  · rintro ⟨⟨front, back, hfront, hback, rfl⟩, hfirst, hlast⟩
    by_cases hnil : ds = []
    · subst hnil
      refine trim_of_blank fun c hc => ?_
      rw [List.append_nil] at hc
      exact (List.mem_append.1 hc).elim (hfront c) (hback c)
    · have hhead : (ds ++ back).head? = ds.head? := List.head?_append_of_ne_nil ds hnil
      rw [trim, List.append_assoc, trimStart_append hfront (hhead ▸ hfirst), List.reverse_append,
        trimStart_append (fun c hc => hback c (List.mem_reverse.1 hc)) ?_, List.reverse_reverse]
      rwa [List.head?_reverse]

end Text

/-! ## Numerals -/

namespace SignedDecimal

/-- A row of decimal digits, at least one, and the number that it stands for. -/
structure Digits (cs : List Char) (n : Nat) : Prop where
  ne_nil : cs ≠ []
  isDigit : ∀ c ∈ cs, c.isDigit = true
  value : Nat.ofDigitChars 10 cs 0 = n

/-- A row of decimal digits, with at most one sign before it, and the number that it stands for. -/
inductive Numeral : List Char → Int → Prop where
  | unsigned {cs : List Char} {n : Nat} (h : Digits cs n) : Numeral cs n
  | positive {cs : List Char} {n : Nat} (h : Digits cs n) : Numeral ('+' :: cs) n
  | negative {cs : List Char} {n : Nat} (h : Digits cs n) : Numeral ('-' :: cs) (-n)

variable {cs : List Char} {n : Nat} {z : Int} {k : Int64}

/-- Digits are read from the left, each one adding to ten times what was read before. -/
theorem readFrom_eq_some_iff {acc : Nat} : readFrom acc cs = some n ↔
    (∀ c ∈ cs, c.isDigit = true) ∧ Nat.ofDigitChars 10 cs acc = n := by
  induction cs generalizing acc with
  | nil => simp [readFrom]
  | cons c cs ih =>
    by_cases hc : c.isDigit = true
    · simp [readFrom, hc, ih, Nat.ofDigitChars_cons, digitValue]
    · simp [readFrom, hc]

theorem readNat_eq_some_iff : readNat cs = some n ↔ Digits cs n := by
  cases cs with
  | nil => exact ⟨nofun, fun h => absurd rfl h.ne_nil⟩
  | cons c cs =>
    rw [readNat, readFrom_eq_some_iff]
    · exact ⟨fun h => ⟨List.cons_ne_nil c cs, h.1, h.2⟩, fun h => ⟨h.isDigit, h.value⟩⟩
    · exact List.cons_ne_nil c cs

/-- A number fits if there is an integer of 64 bits of its value, and then it is that integer. -/
theorem fit_eq_some_iff : fit z = some k ↔ k.toInt = z := by
  have hlow : Int64.minValue.toInt = -2 ^ 63 := by decide
  have hhigh : Int64.maxValue.toInt = 2 ^ 63 - 1 := by decide
  have hle := k.le_toInt
  have hlt := k.toInt_lt
  unfold fit
  split
  next hz =>
    rw [hlow, hhigh] at hz
    have hof : (Int64.ofInt z).toInt = z := Int64.toInt_ofInt_of_le (by omega) (by omega)
    rw [Option.some.injEq, ← Int64.toInt_inj, hof, eq_comm]
  next hz =>
    rw [hlow, hhigh] at hz
    simp only [reduceCtorEq, false_iff]
    omega

/-- A row of digits after a sign, read by way of the number that it stands for. -/
theorem bind_fit_eq_some_iff (sign : Nat → Int) :
    ((readNat cs).bind fun n => fit (sign n)) = some k ↔
      ∃ n, Digits cs n ∧ k.toInt = sign n := by
  simp only [Option.bind_eq_some_iff, readNat_eq_some_iff, fit_eq_some_iff]

/-- A row of digits does not begin with a sign, so there is at most one. -/
theorem Digits.not_sign {c : Char} (hc : c = '+' ∨ c = '-') : ¬ Digits (c :: cs) n := by
  intro hdigits
  have hdigit := hdigits.isDigit c List.mem_cons_self
  rcases hc with rfl | rfl <;> cases hdigit

theorem numeral_positive_iff : Numeral ('+' :: cs) z ↔ ∃ n, Digits cs n ∧ z = n := by
  constructor
  · intro hz
    cases hz with
    | unsigned hn => exact absurd hn (Digits.not_sign (.inl rfl))
    | positive hn => exact ⟨_, hn, rfl⟩
  · rintro ⟨n, hn, rfl⟩
    exact .positive hn

theorem numeral_negative_iff : Numeral ('-' :: cs) z ↔ ∃ n, Digits cs n ∧ z = -n := by
  constructor
  · intro hz
    cases hz with
    | unsigned hn => exact absurd hn (Digits.not_sign (.inr rfl))
    | negative hn => exact ⟨_, hn, rfl⟩
  · rintro ⟨n, hn, rfl⟩
    exact .negative hn

/-- Without a sign a numeral is a row of digits. -/
theorem numeral_unsigned_iff (hpositive : ∀ ds, cs ≠ '+' :: ds) (hnegative : ∀ ds, cs ≠ '-' :: ds) :
    Numeral cs z ↔ ∃ n, Digits cs n ∧ z = n := by
  constructor
  · intro hz
    cases hz with
    | unsigned hn => exact ⟨_, hn, rfl⟩
    | positive hn => exact absurd rfl (hpositive _)
    | negative hn => exact absurd rfl (hnegative _)
  · rintro ⟨n, hn, rfl⟩
    exact .unsigned hn

/-- Reading succeeds on numerals whose numbers fit 64 bits, and gives these numbers. -/
theorem read_eq_some_iff : read cs = some k ↔ Numeral cs k.toInt := by
  unfold read
  split
  case h_1 rest => rw [bind_fit_eq_some_iff (fun n => n), numeral_positive_iff]
  case h_2 rest => rw [bind_fit_eq_some_iff (fun n => -n), numeral_negative_iff]
  case h_3 hpositive hnegative =>
    rw [bind_fit_eq_some_iff (fun n => n), numeral_unsigned_iff hpositive hnegative]

/-! ### What is written -/

theorem digits_digits (n : Nat) : Digits (digits n) n where
  ne_nil := Nat.toDigits_ne_nil
  isDigit _ hc := Nat.isDigit_of_mem_toDigits (by decide) (by decide) hc
  value := Nat.ofDigitChars_ten_toDigits

/-- What is written is a numeral, also of the lowest integer, whose opposite does not fit. -/
theorem numeral_write (k : Int64) : Numeral (write k) k.toInt := by
  unfold write
  split
  next hk =>
    have hneg : -(k.toInt.natAbs : Int) = k.toInt := by omega
    have hnumeral := Numeral.negative (digits_digits k.toInt.natAbs)
    rwa [hneg] at hnumeral
  next hk =>
    have hnonneg : (k.toInt.natAbs : Int) = k.toInt := by omega
    have hnumeral := Numeral.unsigned (digits_digits k.toInt.natAbs)
    rwa [hnonneg] at hnumeral

theorem isBlank_of_isDigit {c : Char} (hc : c.isDigit = true) : Text.isBlank c = false := by
  obtain ⟨hlow, hhigh⟩ := Char.isDigit_iff_toNat.1 hc
  have hlow : 48 ≤ c.toNat := hlow
  have hhigh : c.toNat ≤ 57 := hhigh
  simp [Text.isBlank, Text.blankCodes]
  omega

/-- No character of a numeral is blank. -/
theorem Numeral.isBlank_eq_false (hz : Numeral cs z) : ∀ c ∈ cs, Text.isBlank c = false := by
  cases hz with
  | unsigned hn => exact fun c hc => isBlank_of_isDigit (hn.isDigit c hc)
  | positive hn =>
    exact List.forall_mem_cons.2 ⟨rfl, fun c hc => isBlank_of_isDigit (hn.isDigit c hc)⟩
  | negative hn =>
    exact List.forall_mem_cons.2 ⟨rfl, fun c hc => isBlank_of_isDigit (hn.isDigit c hc)⟩

end SignedDecimal

/-! ## Conversions

What a program can observe of this: an integer turned into a string and back, with anything blank
joined to it by the operator that adds.
-/

namespace CoreBuiltin

open SignedDecimal

variable {s : String} {h : Heap}

theorem call_string_int (k : Int64) (h : Heap) :
    string.call [.int k] h = .ok (.string (SignedDecimal.text k)) h := by
  have hdisplay : h.display (.int k) = SignedDecimal.text k := h.displayUpTo_eq _ _ _
  show EStateM.Result.ok (Value.string (h.display (.int k))) h = _
  rw [hdisplay]

/-- A string stands for an integer, or for none. -/
theorem call_int_cases (s : String) (h : Heap) :
    (∃ k, read (Text.trim s.toList) = some k ∧ int.call [.string s] h = .ok (.int k) h) ∨
      read (Text.trim s.toList) = none ∧ int.call [.string s] h = .ok .undefined h := by
  show (∃ k, _ ∧ EStateM.Result.ok (toInt (.string s)) h = _) ∨
    _ ∧ EStateM.Result.ok (toInt (.string s)) h = _
  rw [toInt]
  cases read (Text.trim s.toList) with
  | none => exact .inr ⟨rfl, rfl⟩
  | some k => exact .inl ⟨k, rfl, rfl⟩

theorem call_int_eq_int_iff {k : Int64} : int.call [.string s] h = .ok (.int k) h ↔
    ∃ ds, Text.Trimmed s.toList ds ∧ Numeral ds k.toInt := by
  simp only [← Text.trim_eq_iff, exists_eq_left', ← read_eq_some_iff]
  rcases call_int_cases s h with ⟨k', hread, hcall⟩ | ⟨hread, hcall⟩ <;> simp [hread, hcall]

/-- A string stands for an integer if it is a numeral of 64 bits between blank characters, and
otherwise for none. The string that an integer stands for is read back, with blank characters joined
to it at both ends. -/
theorem int_reads_numerals (s : String) (h : Heap) :
    (∀ k : Int64, int.call [.string s] h = .ok (.int k) h ↔
      ∃ ds, Text.Trimmed s.toList ds ∧ Numeral ds k.toInt) ∧
    (int.call [.string s] h = .ok .undefined h ↔
      ∀ ds z, Text.Trimmed s.toList ds → Numeral ds z → ¬ (-2 ^ 63 ≤ z ∧ z ≤ 2 ^ 63 - 1)) ∧
    ∀ (k : Int64) (u w : String), (∀ c ∈ u.toList, Text.isBlank c = true) →
      (∀ c ∈ w.toList, Text.isBlank c = true) →
      (do
        let t ← string.call [.int k]
        let left ← Operator.binary .add (.string u) t
        int.call [← Operator.binary .add left (.string w)]) h = .ok (.int k) h := by
  refine ⟨fun k => call_int_eq_int_iff, ?_, fun k u w hu hw => ?_⟩
  · constructor
    · intro hnone ds z htrimmed hz hrange
      have hz' : (Int64.ofInt z).toInt = z := Int64.toInt_ofInt_of_le (by omega) (by omega)
      have hint : int.call [.string s] h = .ok (.int (Int64.ofInt z)) h :=
        call_int_eq_int_iff.2 ⟨ds, htrimmed, hz'.symm ▸ hz⟩
      rw [hnone] at hint
      cases hint
    · intro hnone
      rcases call_int_cases s h with ⟨k, hread, -⟩ | ⟨-, hcall⟩
      · have := k.le_toInt
        have := k.toInt_lt
        exact absurd ⟨by omega, by omega⟩
          (hnone _ _ (Text.trimmed_trim s.toList) (read_eq_some_iff.1 hread))
      · exact hcall
  · have hjoined : (do
        let t ← string.call [.int k]
        let left ← Operator.binary .add (.string u) t
        int.call [← Operator.binary .add left (.string w)]) h =
        int.call [.string (u ++ SignedDecimal.text k ++ w)] h := by
      simp only [bind, EStateM.bind, call_string_int]
      rfl
    have hnumeral := numeral_write k
    rw [hjoined, call_int_eq_int_iff]
    refine ⟨write k, ⟨⟨u.toList, w.toList, hu, hw, ?_⟩, ?_, ?_⟩, hnumeral⟩
    · rw [String.toList_append, String.toList_append, SignedDecimal.text, String.toList_ofList]
    · exact fun c hc => hnumeral.isBlank_eq_false c (List.mem_of_mem_head? hc)
    · exact fun c hc => hnumeral.isBlank_eq_false c (List.mem_of_mem_getLast? hc)

/-- The lowest integer is read back between an ideographic space and a tab. -/
theorem int_reads_numerals_lowest :
    (do
      let t ← string.call [.int Int64.minValue]
      let left ← Operator.binary .add (.string "\u3000") t
      int.call [← Operator.binary .add left (.string "\t")]) ({} : Heap) =
      .ok (.int Int64.minValue) {} :=
  (int_reads_numerals "" {}).2.2 Int64.minValue "\u3000" "\t" (List.forall_mem_singleton.2 rfl)
    (List.forall_mem_singleton.2 rfl)

end CoreBuiltin
end ScriptVM
