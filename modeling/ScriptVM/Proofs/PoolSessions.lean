import ScriptVM.Proofs.Interning

/-!
# Sessions with a pool

A pool is put together by one operation after the other, and indices that were told early are used
for code that is written late. An entry may be reserved and filled in, once and before its index has
been told for a constant. Then an index means the same constant for good: different literals have
different indices, one literal has one index as long as no reserved entry is filled with it, and
nothing that was added is ever moved.
-/

namespace ScriptVM

/-! ## Literals -/

/-- Whether a value can be told apart by what it is, so that one entry is enough for it. -/
def Value.isLiteral : Value → Bool
  | bool _ | int _ | float _ | string _ => true
  | _ => false

/-- Being the same literal is being the same value, of those kinds of which one entry is enough. -/
theorem Value.sameLiteral_iff {v w : Value} :
    v.sameLiteral w = true ↔ v = w ∧ v.isLiteral = true := by
  constructor
  · intro hsame
    refine ⟨eq_of_sameLiteral hsame, ?_⟩
    cases v with
    | bool | int | float | string => rfl
    | _ => cases hsame
  · rintro ⟨rfl, hliteral⟩
    cases v with
    | bool | int | float | string => simp [sameLiteral]
    | _ => cases hliteral

/-! ## Sessions

The index that an operation tells depends on what has been done before. Whether an entry may be
filled in does too.
-/

/-- The index that an operation tells. Filling an entry in tells none. -/
def PoolOp.told? : PoolOp → ConstantPool → Option Nat
  | constant v, p => some (p.constant v).1
  | function f, p => some (p.function f).1
  | reserve, p => some p.reserve.1
  | fill _ _, _ => none

def ConstantPool.made (ops : List PoolOp) : ConstantPool := ({} : ConstantPool).after ops

/-- In a session, an operation comes after `earlier` and tells an index. -/
structure Told (ops earlier : List PoolOp) (op : PoolOp) (i : Nat) : Prop where
  place : earlier ++ [op] <+: ops
  told : op.told? (.made earlier) = some i

/-- An entry that may be filled in: it has been reserved, has not been filled in yet, and its index
has not been told for a constant. -/
structure Fillable (earlier : List PoolOp) (i : Nat) : Prop where
  reserved : ∃ before, Told earlier before .reserve i
  unfilled : ∀ w, .fill i w ∉ earlier
  untold : ∀ before w, ¬ Told earlier before (.constant w) i

/-- A session in which only such entries are filled in. -/
def Orderly (ops : List PoolOp) : Prop :=
  ∀ earlier i v, earlier ++ [.fill i v] <+: ops → Fillable earlier i

/-- What the indices of a session are good for. Where two operations are compared, the second comes
after the first and what is `between`. -/
structure Interns (ops : List PoolOp) : Prop where
  /-- An index that was told is one of an entry. -/
  valid : ∀ earlier op i, Told ops earlier op i → i < (ConstantPool.made ops).entries.size
  /-- The finished unit has the constant at the index that was told for it. -/
  holds : ∀ earlier v i id main, Told ops earlier (.constant v) i →
    ((ConstantPool.made ops).finish id main).constants[i]? = some v
  /-- So it is with functions. -/
  holds_function : ∀ earlier f i id main, Told ops earlier (.function f) i →
    ((ConstantPool.made ops).finish id main).constants[i]? = some (.function f)
  /-- An entry that was filled in holds that. -/
  holds_filled : ∀ earlier v i id main, earlier ++ [.fill i v] <+: ops →
    ((ConstantPool.made ops).finish id main).constants[i]? = some v
  /-- Constants that differ have different indices. -/
  distinct : ∀ earlier between v w i j, Told ops earlier (.constant v) i →
    Told ops (earlier ++ .constant v :: between) (.constant w) j → v ≠ w → i ≠ j
  /-- A literal keeps its index unless some entry is filled in with it. -/
  shared : ∀ earlier between v i j, Told ops earlier (.constant v) i →
    Told ops (earlier ++ .constant v :: between) (.constant v) j → v.isLiteral = true →
    (∀ k, .fill k v ∉ between) → i = j
  /-- No literal is added twice. -/
  unrepeated : ∀ earlier between v w i j, Told ops earlier (.constant v) i →
    Told ops (earlier ++ .constant v :: between) (.constant w) j → v.isLiteral = true →
    i = (ConstantPool.made earlier).entries.size →
    j = (ConstantPool.made (earlier ++ .constant v :: between)).entries.size → v ≠ w
  /-- An index that is not told for a literal is that of a new entry. -/
  fresh : ∀ earlier op i, Told ops earlier op i →
    (∀ v, op = .constant v → v.isLiteral = false) → i = (ConstantPool.made earlier).entries.size
  /-- Nothing is removed or moved, and only filling an entry in changes what it holds. -/
  kept : ∀ earlier op k v, earlier ++ [op] <+: ops →
    (ConstantPool.made earlier).entries[k]? = some v →
    (ConstantPool.made (earlier ++ [op])).entries[k]? = some v ∨
      ∃ w, op = .fill k w ∧ (ConstantPool.made (earlier ++ [op])).entries[k]? = some w

namespace ConstantPool

variable {p : ConstantPool} {ops : List PoolOp} {op : PoolOp} {v : Value} {i k : Nat}

theorem made_append (earlier later : List PoolOp) :
    made (earlier ++ later) = (made earlier).after later :=
  List.foldl_append

/-- The last operation of a session is done last. -/
theorem made_concat (earlier : List PoolOp) (op : PoolOp) :
    made (earlier ++ [op]) = op.perform (made earlier) :=
  made_append earlier [op]

/-! ## One operation -/

/-- A literal that is in the pool is found where it is first, and anything else is added. -/
theorem constant_cases (p : ConstantPool) (v : Value) :
    (∃ i, p.constant v = (i, p) ∧ v.isLiteral = true ∧ p.entries[i]? = some v ∧
      ∀ k < i, p.entries[k]? ≠ some v) ∨
    p.constant v = p.push v ∧ (v.isLiteral = true → ∀ k : Nat, p.entries[k]? ≠ some v) := by
  unfold constant
  cases hfound : p.entries.findIdx? (·.sameLiteral v) with
  | none =>
    refine .inr ⟨rfl, fun hliteral k hk => ?_⟩
    have hdiffers := Array.findIdx?_eq_none_iff.1 hfound v (Array.mem_of_getElem? hk)
    rw [Value.sameLiteral_iff.2 ⟨rfl, hliteral⟩] at hdiffers
    cases hdiffers
  | some i =>
    obtain ⟨hlt, hsame, hfirst⟩ := Array.findIdx?_eq_some_iff_getElem.1 hfound
    obtain ⟨heq, hliteral⟩ := Value.sameLiteral_iff.1 hsame
    have hv : v.isLiteral = true := heq ▸ hliteral
    refine .inl ⟨i, rfl, hv, heq ▸ Array.getElem?_eq_getElem hlt, fun k hk hheld => ?_⟩
    obtain ⟨hlt', heq'⟩ := Array.getElem?_eq_some_iff.1 hheld
    exact hfirst k hk (Value.sameLiteral_iff.2 ⟨heq', heq' ▸ hv⟩)

/-- An operation finds a literal, adds an entry or fills one in. -/
theorem perform_cases (p : ConstantPool) (op : PoolOp) :
    (∃ v i, op = .constant v ∧ v.isLiteral = true ∧ p.entries[i]? = some v ∧
      op.told? p = some i ∧ op.perform p = p) ∨
    (∃ v, op.told? p = some p.entries.size ∧ op.perform p = (p.push v).2) ∨
    ∃ k v, op = .fill k v := by
  cases op with
  | constant v =>
    obtain ⟨i, hfound, hliteral, hi, -⟩ | ⟨hadded, -⟩ := constant_cases p v
    · exact .inl ⟨v, i, rfl, hliteral, hi, by rw [PoolOp.told?, hfound],
        by rw [PoolOp.perform, hfound]⟩
    · exact .inr (.inl ⟨v, by rw [PoolOp.told?, hadded]; rfl, by rw [PoolOp.perform, hadded]⟩)
  | function f => exact .inr (.inl ⟨.function f, rfl, rfl⟩)
  | reserve => exact .inr (.inl ⟨.undefined, rfl, rfl⟩)
  | fill k v => exact .inr (.inr ⟨k, v, rfl⟩)

/-- An entry is added at the end. -/
theorem size_push (p : ConstantPool) (v : Value) :
    (p.push v).2.entries.size = p.entries.size + 1 :=
  Array.size_push v

theorem size_fill (p : ConstantPool) (k : Nat) (v : Value) :
    (p.fill k v).entries.size = p.entries.size :=
  Array.size_setIfInBounds

/-- What an entry is filled in with is there. -/
theorem fill_entry (hk : k < p.entries.size) (v : Value) : (p.fill k v).entries[k]? = some v :=
  Array.getElem?_setIfInBounds_self_of_lt hk

/-- The pool does not become smaller. -/
theorem size_perform (p : ConstantPool) (op : PoolOp) :
    p.entries.size ≤ (op.perform p).entries.size := by
  obtain ⟨_, _, -, -, -, -, hsame⟩ | ⟨v, -, hadded⟩ | ⟨k, v, rfl⟩ := perform_cases p op
  · rw [hsame]
  · rw [hadded, size_push]
    exact Nat.le_succ _
  · exact (size_fill p k v).ge

/-- By induction on the operations, none of which removes an entry. -/
theorem size_after (p : ConstantPool) (ops : List PoolOp) :
    p.entries.size ≤ (p.after ops).entries.size := by
  induction ops generalizing p with
  | nil => exact Nat.le_refl _
  | cons op ops ih => exact (size_perform p op).trans (ih _)

/-- The index that is told is one of an entry. -/
theorem told_lt (h : op.told? p = some i) : i < (op.perform p).entries.size := by
  obtain ⟨_, _, -, -, hentry, htold, hsame⟩ | ⟨v, htold, hadded⟩ | ⟨k, v, rfl⟩ :=
    perform_cases p op
  · obtain rfl := Option.some.inj (h.symm.trans htold)
    rw [hsame]
    exact (Array.getElem?_eq_some_iff.1 hentry).1
  · obtain rfl := Option.some.inj (h.symm.trans htold)
    rw [hadded, size_push]
    exact Nat.lt_succ_self _
  · cases h

/-- What an old entry holds it held before, unless it is filled in with that. -/
theorem perform_reflects (hk : k < p.entries.size) (hop : op ≠ .fill k v)
    (h : (op.perform p).entries[k]? = some v) : p.entries[k]? = some v := by
  obtain ⟨_, _, -, -, -, -, hsame⟩ | ⟨w, -, hadded⟩ | ⟨j, w, rfl⟩ := perform_cases p op
  · rwa [hsame] at h
  · rwa [hadded, push, Array.getElem?_push, if_neg hk.ne] at h
  · by_cases heq : j = k
    · subst heq
      rw [PoolOp.perform, fill_entry hk] at h
      exact absurd (by rw [Option.some.inj h]) hop
    · rwa [PoolOp.perform, fill, Array.getElem?_setIfInBounds_ne heq] at h

/-- What an entry holds in the end it has been given by filling in, or it held it at the
beginning. -/
theorem after_reflects (hk : k < p.entries.size) (hops : .fill k v ∉ ops)
    (h : (p.after ops).entries[k]? = some v) : p.entries[k]? = some v := by
  induction ops generalizing p with
  | nil => exact h
  | cons op ops ih =>
    obtain ⟨hop, hops⟩ := not_or.1 (mt List.mem_cons.2 hops)
    exact perform_reflects hk (Ne.symm hop) (ih (hk.trans_le (size_perform p op)) hops h)

/-- The index that is told for a literal is the first at which the literal is. -/
theorem constant_first (hliteral : v.isLiteral = true) (hk : k < (p.constant v).1) :
    (p.constant v).2.entries[k]? ≠ some v := by
  obtain ⟨i, hfound, -, -, hfirst⟩ | ⟨hadded, hnew⟩ := constant_cases p v
  · rw [hfound] at hk ⊢
    exact hfirst k hk
  · rw [hadded] at hk ⊢
    have hold : k ≠ p.entries.size := Nat.ne_of_lt hk
    rw [push, Array.getElem?_push, if_neg hold]
    exact hnew hliteral k

/-- So it stays as long as no entry is filled in with the literal. -/
theorem after_constant_first (htold : (PoolOp.constant v).told? p = some i)
    (hliteral : v.isLiteral = true) (hops : ∀ k, .fill k v ∉ ops) (hk : k < i) :
    (((PoolOp.constant v).perform p).after ops).entries[k]? ≠ some v := by
  intro hheld
  have hsize := hk.trans (told_lt htold)
  obtain rfl := Option.some.inj htold
  exact constant_first hliteral hk (after_reflects hsize (hops k) hheld)

end ConstantPool

/-! ## Whole sessions

Here sessions are taken apart at the operations that are compared. What is told by one of them is
told in every session that begins in the same way.
-/

section Sessions

open ConstantPool

variable {ops front earlier earlier' between later : List PoolOp} {op op' : PoolOp}
  {f : FunctionObject} {v w : Value} {i j : Nat}

/-- The index was told as soon as the operation was done. -/
theorem Told.restrict (h : Told ops earlier op i) (hfront : earlier ++ [op] <+: front) :
    Told front earlier op i :=
  ⟨hfront, h.told⟩

/-- The entry is there when its index is told, and stays. -/
theorem Told.valid (h : Told ops earlier op i) : i < (made ops).entries.size := by
  obtain ⟨⟨later, rfl⟩, htold⟩ := h
  rw [made_append, made_concat]
  exact (told_lt htold).trans_le (size_after _ later)

/-- An index that is not told for a literal is that of a new entry. -/
theorem Told.fresh (h : Told ops earlier op i)
    (hop : ∀ v, op = .constant v → v.isLiteral = false) : i = (made earlier).entries.size := by
  obtain ⟨v, _, hconstant, hliteral, -⟩ | ⟨_, htold, -⟩ | ⟨_, _, rfl⟩ :=
    perform_cases (made earlier) op
  · rw [hop v hconstant] at hliteral
    cases hliteral
  · exact Option.some.inj (h.told.symm.trans htold)
  · cases h.told

/-- If the later of two operations has added its entry at the index, the two are one. -/
theorem Told.eq_of_prefix (h : Told ops earlier op i) (h' : Told ops earlier' op' i)
    (hop' : ∀ v, op' = .constant v → v.isLiteral = false)
    (hplace : earlier ++ [op] <+: earlier' ++ [op']) : op = op' := by
  obtain heq | hearlier := List.prefix_concat_iff.1 hplace
  · exact List.singleton_inj.1 (List.append_inj' heq rfl).2
  · exact absurd (h'.fresh hop') (h.restrict hearlier).valid.ne

/-- No two entries are added at one index. -/
theorem Told.once (h : Told ops earlier op i) (h' : Told ops earlier' op' i)
    (hop : ∀ v, op = .constant v → v.isLiteral = false)
    (hop' : ∀ v, op' = .constant v → v.isLiteral = false) : op = op' := by
  obtain hplace | hplace := List.prefix_or_prefix_of_prefix h.place h'.place
  · exact h.eq_of_prefix h' hop' hplace
  · exact (h'.eq_of_prefix h hop hplace).symm

namespace Orderly

theorem of_prefix (h : Orderly ops) (hfront : front <+: ops) : Orderly front :=
  fun earlier i v hplace => h earlier i v (hplace.trans hfront)

/-- What is filled in later on is fillable at some point until then. -/
theorem exists_fillable (h : Orderly (front ++ later)) (hw : .fill i w ∈ later) :
    ∃ sofar, Fillable (front ++ sofar) i := by
  obtain ⟨sofar, rest, rfl⟩ := List.append_of_mem hw
  exact ⟨sofar, h (front ++ sofar) i w ⟨rest, by simp⟩⟩

/-- A constant is at its index to the end, since the index has been told for it. -/
theorem holds (h : Orderly ops) (hv : Told ops earlier (.constant v) i) :
    (made ops).entries[i]? = some v := by
  obtain ⟨⟨later, rfl⟩, htold⟩ := hv
  have hlater : ∀ w, .fill i w ∉ later := by
    intro w hw
    obtain ⟨sofar, hfillable⟩ := h.exists_fillable hw
    exact hfillable.untold earlier v ⟨List.prefix_append .., htold⟩
  obtain rfl := Option.some.inj htold
  rw [made_append, made_concat]
  exact after_keeps hlater (constant_entry _ v)

/-- A function is at its index to the end. That entry was not reserved, since no two entries are
added at one index. -/
theorem function_holds (h : Orderly ops) (hf : Told ops earlier (.function f) i) :
    (made ops).entries[i]? = some (.function f) := by
  obtain ⟨⟨later, rfl⟩, htold⟩ := hf
  have hlater : ∀ w, .fill i w ∉ later := by
    intro w hw
    obtain ⟨sofar, hfillable⟩ := h.exists_fillable hw
    obtain ⟨before, hreserved⟩ := hfillable.reserved
    have hadded := Told.mk (List.prefix_append (earlier ++ [.function f]) sofar) htold
    exact nomatch hadded.once hreserved nofun nofun
  obtain rfl := Option.some.inj htold
  rw [made_append, made_concat]
  exact after_keeps hlater (push_entry _ _)

/-- An entry that is filled in holds that to the end, since it has been filled in. -/
theorem filled_holds (h : Orderly ops) (hfill : earlier ++ [.fill i v] <+: ops) :
    (made ops).entries[i]? = some v := by
  obtain ⟨before, hreserved⟩ := (h earlier i v hfill).reserved
  obtain ⟨later, rfl⟩ := hfill
  have hlater : ∀ w, .fill i w ∉ later := by
    intro w hw
    obtain ⟨sofar, hfillable⟩ := h.exists_fillable hw
    exact hfillable.unfilled v (by simp)
  rw [made_append, made_concat]
  exact after_keeps hlater (fill_entry hreserved.valid v)

/-- The first constant is in its entry when the second operation is done. -/
theorem holds_between (h : Orderly ops) (hv : Told ops earlier (.constant v) i)
    (hw : Told ops (earlier ++ .constant v :: between) op j) :
    (made (earlier ++ .constant v :: between)).entries[i]? = some v :=
  (h.of_prefix ((List.prefix_append _ _).trans hw.place)).holds (hv.restrict ⟨between, by simp⟩)

/-- A literal keeps its index unless some entry is filled in with it: the entries at both indices
hold it in the end, and neither index has the literal before it. -/
theorem shared (h : Orderly ops) (hv : Told ops earlier (.constant v) i)
    (hv' : Told ops (earlier ++ .constant v :: between) (.constant v) j)
    (hliteral : v.isLiteral = true) (hbetween : ∀ k, .fill k v ∉ between) : i = j := by
  have hfront := h.of_prefix hv'.place
  have hi := hfront.holds (hv.restrict ⟨between ++ [PoolOp.constant v], by simp⟩)
  have hj := hfront.holds (hv'.restrict List.prefix_rfl)
  have hmade : made (earlier ++ .constant v :: between ++ [PoolOp.constant v]) =
      ((PoolOp.constant v).perform (made earlier)).after (between ++ [PoolOp.constant v]) := by
    rw [List.append_assoc, made_append]
    rfl
  apply Nat.le_antisymm
  · refine Nat.le_of_not_lt fun hlt => ?_
    rw [hmade] at hj
    exact after_constant_first hv.told hliteral (by simpa using hbetween) hlt hj
  · refine Nat.le_of_not_lt fun hlt => ?_
    rw [made_concat] at hi
    exact constant_first hliteral (hlt.trans_eq (Option.some.inj hv'.told).symm) hi

/-- No literal is added twice: by the second time it is in the pool. -/
theorem unrepeated (h : Orderly ops) (hv : Told ops earlier (.constant v) i)
    (hw : Told ops (earlier ++ .constant v :: between) (.constant w) j)
    (hliteral : v.isLiteral = true)
    (hj : j = (made (earlier ++ .constant v :: between)).entries.size) : v ≠ w := by
  rintro rfl
  obtain ⟨k, hfound, -, hk, -⟩ | ⟨-, hnew⟩ :=
    constant_cases (made (earlier ++ .constant v :: between)) v
  · have htold := hw.told
    rw [PoolOp.told?, hfound] at htold
    obtain rfl := Option.some.inj htold
    exact absurd hj (Nat.ne_of_lt (Array.getElem?_eq_some_iff.1 hk).1)
  · exact hnew hliteral i (h.holds_between hv hw)

/-- In an orderly session an index means the same constant for good. -/
theorem interns (h : Orderly ops) : Interns ops where
  valid _ _ _ htold := htold.valid
  holds _ _ _ _ _ hv := h.holds hv
  holds_function _ _ _ _ _ hf := h.function_holds hf
  holds_filled _ _ _ _ _ hfill := h.filled_holds hfill
  distinct _ _ _ _ _ _ hv hw hne heq :=
    hne (Option.some.inj ((heq ▸ h.holds hv).symm.trans (h.holds hw)))
  shared _ _ _ _ _ := h.shared
  unrepeated _ _ _ _ _ _ hv hw hliteral _ hj := h.unrepeated hv hw hliteral hj
  fresh _ _ _ htold hop := htold.fresh hop
  kept earlier op k v _ hk := by
    rw [made_concat]
    by_cases hop : ∃ w, op = .fill k w
    · obtain ⟨w, rfl⟩ := hop
      exact .inr ⟨w, rfl, fill_entry (Array.getElem?_eq_some_iff.1 hk).1 w⟩
    · exact .inl (perform_keeps (fun w hw => hop ⟨w, hw⟩) hk)

end Orderly
end Sessions

/-! ### Both zeros

Zero is added after an entry is reserved, and that entry is filled in with the other zero. The other
zero is then found there, and zero still where it was.
-/

def bothZeros : List PoolOp :=
  [.reserve, .constant (.float ⟨0⟩), .fill 0 (.float ⟨0x8000000000000000⟩),
    .constant (.float ⟨0x8000000000000000⟩), .constant (.float ⟨0⟩)]

/-- The entry that is filled in has been reserved, and its index has been told for no constant. -/
theorem orderly_bothZeros : Orderly bothZeros := by
  intro earlier i v hplace
  obtain ⟨rfl, rfl⟩ : earlier = bothZeros.take 2 ∧ i = 0 := by
    rcases earlier with _ | ⟨_, _ | ⟨_, _ | ⟨_, _ | ⟨_, _ | ⟨_, _⟩⟩⟩⟩⟩ <;>
      simp_all [bothZeros]
  refine ⟨⟨[], ⟨_, rfl⟩, rfl⟩, by simp [bothZeros], ?_⟩
  rintro before w ⟨hplace, htold⟩
  obtain ⟨rfl, rfl⟩ : before = [.reserve] ∧ w = .float ⟨0⟩ := by
    rcases before with _ | ⟨_, _ | ⟨_, _⟩⟩ <;> simp_all [bothZeros]
  exact absurd htold (by decide +kernel)

/-- Either zero has its own index, though the two are equal numbers. -/
theorem interns_bothZeros : Orderly bothZeros ∧ Interns bothZeros ∧
    Told bothZeros (bothZeros.take 1) (.constant (.float ⟨0⟩)) 1 ∧
    Told bothZeros (bothZeros.take 3) (.constant (.float ⟨0x8000000000000000⟩)) 0 ∧
    Told bothZeros (bothZeros.take 4) (.constant (.float ⟨0⟩)) 1 :=
  ⟨orderly_bothZeros, orderly_bothZeros.interns, ⟨⟨_, rfl⟩, by decide +kernel⟩,
    ⟨⟨_, rfl⟩, by decide +kernel⟩, ⟨⟨_, rfl⟩, by decide +kernel⟩⟩

end ScriptVM
