import ScriptVM.Proofs.Detachment

/-!
# Laws of equality

Two references are equal as soon as they are one reference, and by what they hold otherwise, and
both can happen within one comparison. A NaN differs from itself, while an array that holds a NaN is
equal to itself. So equality is not reflexive, and which of the two ways settles a pair depends on
the heap. It is a partial equivalence nevertheless.

`Heap.EqualBy` is one step of a comparison, where a relation stands for the comparison of what
containers hold, and `Heap.Agree` is so many steps. Every law holds of a step if it holds of that
relation. Walks remember the way they came and stop after so many references, and none of this is
felt: two values are equal just if they agree after some number of steps. This needs no condition on
containers that hold themselves, because a pair that is met again on the way takes at least as many
steps as it took before, and so cannot be what made the two values agree.
-/

namespace ScriptVM

/-! ## One step of a comparison

What containers hold is compared by a relation that is left open. Where the two values are one
reference, nothing that they hold is looked at.
-/

/-- A NaN, or an error whose payload is one. -/
inductive Value.WrapsNaN : Value → Prop where
  | float {x : Binary64} (hx : x.isNaN = true) : WrapsNaN (.float x)
  | error {v : Value} (hv : WrapsNaN v) : WrapsNaN (.error v)

def FieldsBy (R : Value → Value → Prop) (p q : String × Value) : Prop := p.1 = q.1 ∧ R p.2 q.2

/-- Two values are equal, where a relation says what is equal of what containers hold. -/
inductive Heap.EqualBy (h : Heap) (R : Value → Value → Prop) : Value → Value → Prop where
  | undefined : EqualBy h R .undefined .undefined
  | bool (b : Bool) : EqualBy h R (.bool b) (.bool b)
  | int (n : Int64) : EqualBy h R (.int n) (.int n)
  | float {x y : Binary64} (hxy : x.equal y = true) : EqualBy h R (.float x) (.float y)
  | string (s : String) : EqualBy h R (.string s) (.string s)
  | sameArray (ref : ArrayRef) : EqualBy h R (.array ref) (.array ref)
  | array {a b : ArrayRef} (hitems : List.Forall₂ R (h.arrayAt a).toList (h.arrayAt b).toList) :
    EqualBy h R (.array a) (.array b)
  | sameMap (ref : MapRef) : EqualBy h R (.map ref) (.map ref)
  | map {a b : MapRef}
    (hfields : List.Forall₂ (FieldsBy R) (h.mapAt a).entries (h.mapAt b).entries) :
    EqualBy h R (.map a) (.map b)
  | error {v w : Value} (hvw : EqualBy h R v w) : EqualBy h R (.error v) (.error w)
  | function {f g : FunctionObject} (hfg : f.same g = true) :
    EqualBy h R (.function f) (.function g)
  | builtin {b c : Builtin} (hbc : b.same c = true) : EqualBy h R (.builtin b) (.builtin c)

/-- Builtins are the same by name or by identity, which is symmetric in either case. -/
theorem Builtin.same_comm (b c : Builtin) : b.same c = c.same b := by
  cases b <;> cases c <;> simp [same, eq_comm, BEq.comm]

theorem Builtin.same_trans {b c d : Builtin} (hbc : b.same c = true) (hcd : c.same d = true) :
    b.same d = true := by
  cases b <;> cases c <;> cases d <;> simp_all [same]

/-- The relation has to be implied for members of the lists only. -/
theorem forall₂_imp_of_mem {α : Type} {R S : α → α → Prop} {as bs : List α}
    (hab : List.Forall₂ R as bs) (hRS : ∀ a b, a ∈ as → b ∈ bs → R a b → S a b) :
    List.Forall₂ S as bs := by
  induction hab with
  | nil => exact .nil
  | cons hR _ ih =>
    refine .cons (hRS _ _ List.mem_cons_self List.mem_cons_self hR) (ih fun a b ha hb => ?_)
    exact hRS a b (List.mem_cons_of_mem _ ha) (List.mem_cons_of_mem _ hb)

/-- The relations may be three different ones, as the steps that a comparison takes are. -/
theorem forall₂_trans {α : Type} {R S T : α → α → Prop}
    (hRST : ∀ a b c, R a b → S b c → T a c) {as bs cs : List α} (hab : List.Forall₂ R as bs)
    (hbc : List.Forall₂ S bs cs) : List.Forall₂ T as cs := by
  induction hab generalizing cs with
  | nil => cases hbc; exact .nil
  | cons hR _ ih =>
    cases hbc with
    | cons hS hbc => exact .cons (hRST _ _ _ hR hS) (ih hbc)

namespace Heap

variable {h : Heap} {R S : Value → Value → Prop} {u v w : Value}

namespace EqualBy

/-- Only what the containers in the two values hold is looked at. -/
theorem imp (hvw : h.EqualBy R v w)
    (hRS : ∀ a b, h.Contains v a → h.Contains w b → R a b → S a b) : h.EqualBy S v w := by
  induction hvw with
  | undefined => exact .undefined
  | bool b => exact .bool b
  | int n => exact .int n
  | float hxy => exact .float hxy
  | string s => exact .string s
  | sameArray ref => exact .sameArray ref
  | array hitems =>
    refine .array (forall₂_imp_of_mem hitems fun a b ha hb => hRS a b ?_ ?_)
    · exact (Holds.element (Array.mem_toList_iff.1 ha)).contains
    · exact (Holds.element (Array.mem_toList_iff.1 hb)).contains
  | sameMap ref => exact .sameMap ref
  | map hfields =>
    refine .map (forall₂_imp_of_mem hfields fun p q hp hq hpq => ⟨hpq.1, hRS _ _ ?_ ?_ hpq.2⟩)
    · exact (Holds.field hp).contains
    · exact (Holds.field hq).contains
  | error _ ih => exact .error (ih fun a b ha hb => hRS a b (.payload ha) (.payload hb))
  | function hfg => exact .function hfg
  | builtin hbc => exact .builtin hbc

/-- A step can be made the other way round if comparisons of what is held can. -/
theorem symm (hR : ∀ a b, R a b → R b a) (hvw : h.EqualBy R v w) : h.EqualBy R w v := by
  induction hvw with
  | undefined => exact .undefined
  | bool b => exact .bool b
  | int n => exact .int n
  | float hxy => exact .float (Binary64.equal_comm _ _ ▸ hxy)
  | string s => exact .string s
  | sameArray ref => exact .sameArray ref
  | array hitems => exact .array (hitems.imp hR).flip
  | sameMap ref => exact .sameMap ref
  | map hfields => exact .map (hfields.imp fun p q hpq => ⟨hpq.1.symm, hR _ _ hpq.2⟩).flip
  | error _ ih => exact .error ih
  | function hfg => exact .function (BEq.symm hfg)
  | builtin hbc => exact .builtin (Builtin.same_comm _ _ ▸ hbc)

/-- Two steps with a common value make one, if the comparisons of what is held are composed. -/
theorem trans (hR : ∀ a b c, R a b → R b c → R a c) (huv : h.EqualBy R u v)
    (hvw : h.EqualBy R v w) : h.EqualBy R u w := by
  induction huv generalizing w with
  | undefined => exact hvw
  | bool b => exact hvw
  | int n => exact hvw
  | float hxy =>
    cases hvw with
    | float hyz => exact .float (Binary64.equal_trans hxy hyz)
  | string s => exact hvw
  | sameArray ref => exact hvw
  | array hitems =>
    cases hvw with
    | sameArray => exact .array hitems
    | array hitems' => exact .array (forall₂_trans hR hitems hitems')
  | sameMap ref => exact hvw
  | map hfields =>
    cases hvw with
    | sameMap => exact .map hfields
    | map hfields' =>
      refine .map (forall₂_trans (fun p q r hpq hqr => ?_) hfields hfields')
      exact ⟨hpq.1.trans hqr.1, hR _ _ _ hpq.2 hqr.2⟩
  | error _ ih =>
    cases hvw with
    | error hvw => exact .error (ih hvw)
  | function hfg =>
    cases hvw with
    | function hgk => exact .function (PartialEquivBEq.trans hfg hgk)
  | builtin hbc =>
    cases hvw with
    | builtin hcd => exact .builtin (Builtin.same_trans hbc hcd)

/-- Whatever containers hold, only NaNs differ from themselves. -/
theorem self_iff : h.EqualBy R v v ↔ ¬ v.WrapsNaN := by
  induction v with
  | float x =>
    have hself : h.EqualBy R (.float x) (.float x) ↔ x.equal x = true :=
      ⟨fun heq => by cases heq with | float hxx => exact hxx, .float⟩
    have hnan : (Value.float x).WrapsNaN ↔ x.isNaN = true :=
      ⟨fun hx => by cases hx with | float hx => exact hx, .float⟩
    simp [hself, hnan, Binary64.equal_self]
  | error payload ih =>
    have hself : h.EqualBy R (.error payload) (.error payload) ↔ h.EqualBy R payload payload :=
      ⟨fun heq => by cases heq with | error heq => exact heq, .error⟩
    have hnan : (Value.error payload).WrapsNaN ↔ payload.WrapsNaN :=
      ⟨fun hv => by cases hv with | error hv => exact hv, .error⟩
    rw [hself, hnan, ih]
  | undefined => exact iff_of_true .undefined nofun
  | bool b => exact iff_of_true (.bool b) nofun
  | int n => exact iff_of_true (.int n) nofun
  | string s => exact iff_of_true (.string s) nofun
  | array ref => exact iff_of_true (.sameArray ref) nofun
  | map ref => exact iff_of_true (.sameMap ref) nofun
  | function f => exact iff_of_true (.function (BEq.refl f.id)) nofun
  | builtin b => exact iff_of_true (.builtin (by cases b <;> simp [Builtin.same])) nofun

/-! ### What equal values have in common -/

theorem typeName_eq (hvw : h.EqualBy R v w) : v.typeName = w.typeName := by
  cases hvw <;> rfl

/-- Strings are equal as a whole, and containers are compared element by element. -/
theorem lengthOf_eq (hvw : h.EqualBy R v w) :
    CoreBuiltin.lengthOf h v = CoreBuiltin.lengthOf h w := by
  cases hvw with
  | array hitems =>
    have hsize := hitems.length_eq
    rw [Array.length_toList, Array.length_toList] at hsize
    exact congrArg Except.ok hsize
  | map hfields => exact congrArg Except.ok hfields.length_eq
  | _ => rfl

/-- Zeros of either sign are equal, and no float counts as false for being zero. -/
theorem isFalsy_eq (hvw : h.EqualBy R v w) : h.isFalsy v = h.isFalsy w := by
  cases hvw with
  | float hxy =>
    simp only [Binary64.equal, Bool.and_eq_true, Bool.not_eq_true'] at hxy
    rw [isFalsy, isFalsy, hxy.1.1, hxy.1.2]
  | array hitems =>
    have hsize := hitems.length_eq
    rw [Array.length_toList, Array.length_toList] at hsize
    rw [isFalsy, isFalsy, Array.isEmpty, Array.isEmpty, hsize]
  | map hfields =>
    rw [isFalsy, isFalsy, Bool.eq_iff_iff, List.isEmpty_iff_length_eq_zero,
      List.isEmpty_iff_length_eq_zero, hfields.length_eq]
  | _ => rfl

end EqualBy

/-! ## So many steps -/

/-- Two values are found equal in so many steps. -/
def Agree (h : Heap) : (steps : Nat) → Value → Value → Prop
  | 0 => fun _ _ => False
  | steps + 1 => h.EqualBy (h.Agree steps)

variable {m n : Nat}

/-- What has been settled stays settled when there are more steps to take. -/
theorem Agree.succ (hvw : h.Agree n v w) : h.Agree (n + 1) v w := by
  induction n generalizing v w with
  | zero => exact hvw.elim
  | succ n ih => exact EqualBy.imp hvw fun a b _ _ hab => ih hab

theorem Agree.mono (hvw : h.Agree m v w) (hmn : m ≤ n) : h.Agree n v w := by
  induction hmn with
  | refl => exact hvw
  | step _ ih => exact ih.succ

theorem Agree.symm (hvw : h.Agree n v w) : h.Agree n w v := by
  induction n generalizing v w with
  | zero => exact hvw
  | succ n ih => exact EqualBy.symm (fun _ _ hab => ih hab) hvw

/-- Both comparisons take the same number of steps, and so does the composed one. -/
theorem Agree.trans (huv : h.Agree n u v) (hvw : h.Agree n v w) : h.Agree n u w := by
  induction n generalizing u v w with
  | zero => exact huv
  | succ n ih => exact EqualBy.trans (fun _ _ _ hab hbc => ih hab hbc) huv hvw

/-- Pairs that agree after some number of steps each agree after one number of steps. -/
theorem exists_forall₂ {α : Type} {R : Nat → α → α → Prop} {as bs : List α}
    (hR : ∀ {m n a b}, R m a b → m ≤ n → R n a b)
    (hab : List.Forall₂ (fun a b => ∃ n, R n a b) as bs) : ∃ n, List.Forall₂ (R n) as bs := by
  induction hab with
  | nil => exact ⟨0, .nil⟩
  | cons hfirst _ ih =>
    obtain ⟨m, hm⟩ := hfirst
    obtain ⟨n, hn⟩ := ih
    refine ⟨max m n, .cons (hR hm (Nat.le_max_left m n)) ?_⟩
    exact hn.imp fun a b hab => hR hab (Nat.le_max_right m n)

/-- If each pair of what is held agrees after some steps, one more step settles the pair itself. -/
theorem EqualBy.exists_agree (hvw : h.EqualBy (fun a b => ∃ n, h.Agree n a b) v w) :
    ∃ n, h.Agree n v w := by
  suffices ∃ n, h.EqualBy (h.Agree n) v w by
    obtain ⟨n, hn⟩ := this
    exact ⟨n + 1, hn⟩
  induction hvw with
  | undefined => exact ⟨0, .undefined⟩
  | bool b => exact ⟨0, .bool b⟩
  | int n => exact ⟨0, .int n⟩
  | float hxy => exact ⟨0, .float hxy⟩
  | string s => exact ⟨0, .string s⟩
  | sameArray ref => exact ⟨0, .sameArray ref⟩
  | array hitems =>
    obtain ⟨n, hn⟩ := exists_forall₂ (R := h.Agree) Agree.mono hitems
    exact ⟨n, .array hn⟩
  | sameMap ref => exact ⟨0, .sameMap ref⟩
  | map hfields =>
    have hfields := hfields.imp (S := fun p q => ∃ n, FieldsBy (h.Agree n) p q)
      fun p q hpq => hpq.2.imp fun n hn => ⟨hpq.1, hn⟩
    obtain ⟨n, hn⟩ := exists_forall₂ (fun hpq hmn => ⟨hpq.1, hpq.2.mono hmn⟩) hfields
    exact ⟨n, .map hn⟩
  | error _ ih =>
    obtain ⟨n, hn⟩ := ih
    exact ⟨n, .error hn⟩
  | function hfg => exact ⟨0, .function hfg⟩
  | builtin hbc => exact ⟨0, .builtin hbc⟩

/-! ## What a walk finds

A walk is started with as many references to follow as there are pairs of containers, and does not
follow a pair that is on its path. Neither keeps it from finding that two values agree.
-/

theorem isEqv_iff_forall₂ {α : Type} {r : α → α → Bool} {as bs : List α} :
    List.isEqv as bs r = true ↔ List.Forall₂ (fun a b => r a b = true) as bs := by
  induction as generalizing bs with
  | nil => cases bs <;> simp
  | cons a as ih => cases bs <;> simp [List.isEqv, ih]

/-- Fields are compared in their order, name by name. -/
theorem fieldsEqual_iff {eq : Value → Value → Bool} {a b : FieldMap Value} :
    fieldsEqual eq a b = true ↔
      List.Forall₂ (FieldsBy fun v w => eq v w = true) a.entries b.entries := by
  rw [fieldsEqual, isEqv_iff_forall₂]
  simp only [Bool.and_eq_true, beq_iff_eq]
  rfl

/-- What is found equal is equal by a relation if that holds for references. -/
theorem EqualBy.of_equalWith {arrays : ArrayRef → ArrayRef → Bool}
    {maps : MapRef → MapRef → Bool}
    (ha : ∀ {a b}, arrays a b = true → h.EqualBy R (.array a) (.array b))
    (hm : ∀ {a b}, maps a b = true → h.EqualBy R (.map a) (.map b))
    (hvw : v.equalWith arrays maps w = true) : h.EqualBy R v w := by
  induction v generalizing w with
  | undefined =>
    cases w with
    | undefined => exact .undefined
    | _ => cases hvw
  | bool b =>
    cases w with
    | bool c => exact eq_of_beq hvw ▸ .bool b
    | _ => cases hvw
  | int n =>
    cases w with
    | int k => exact eq_of_beq hvw ▸ .int n
    | _ => cases hvw
  | float x =>
    cases w with
    | float y => exact .float hvw
    | _ => cases hvw
  | string s =>
    cases w with
    | string t => exact eq_of_beq hvw ▸ .string s
    | _ => cases hvw
  | array a =>
    cases w with
    | array b => exact ha hvw
    | _ => cases hvw
  | map a =>
    cases w with
    | map b => exact hm hvw
    | _ => cases hvw
  | error payload ih =>
    cases w with
    | error payload' => exact .error (ih hvw)
    | _ => cases hvw
  | function f =>
    cases w with
    | function g => exact .function hvw
    | _ => cases hvw
  | builtin b =>
    cases w with
    | builtin c => exact .builtin hvw
    | _ => cases hvw

/-- What a walk finds equal agrees, since each reference that is followed takes one step. -/
theorem agree_of_equalUpTo {path : List (Container × Container)}
    (hvw : h.equalUpTo n path v w = true) : h.Agree (n + 1) v w := by
  induction n generalizing path v w with
  | zero =>
    refine EqualBy.of_equalWith (fun hab => ?_) (fun hab => ?_) hvw
    · exact of_decide_eq_true hab ▸ .sameArray _
    · exact of_decide_eq_true hab ▸ .sameMap _
  | succ n ih =>
    refine EqualBy.of_equalWith (fun hab => ?_) (fun hab => ?_) hvw
    · rcases Bool.or_eq_true_iff.1 hab with hsame | hitems
      · exact of_decide_eq_true hsame ▸ .sameArray _
      · have hitems := (Bool.and_eq_true_iff.1 hitems).2
        rw [← Array.isEqv_toList, isEqv_iff_forall₂] at hitems
        exact .array (hitems.imp fun _ _ hab => ih hab)
    · rcases Bool.or_eq_true_iff.1 hab with hsame | hfields
      · exact of_decide_eq_true hsame ▸ .sameMap _
      · have hfields := fieldsEqual_iff.1 (Bool.and_eq_true_iff.1 hfields).2
        exact .map (hfields.imp fun _ _ hpq => ⟨hpq.1, ih hpq.2⟩)

theorem mem_pairs_of_provides {c d : Container} (hc : h.Provides c.value)
    (hd : h.Provides d.value) : (c, d) ∈ h.pairs := by
  have hmem {c : Container} (hc : h.Provides c.value) : c ∈ h.inventory := by
    cases c with
    | array ref => exact array_mem_inventory.2 (hc .array ref.index ⟨_, .refl _, rfl⟩)
    | map ref => exact map_mem_inventory.2 (hc .map ref.index ⟨_, .refl _, rfl⟩)
  exact List.mem_product.2 ⟨hmem hc, hmem hd⟩

/-- A pair of containers is followed if it takes all the steps: it is not on the path, where every
pair takes more, and from then on it counts as one of those. -/
theorem follows {path : List (Container × Container)} {c d : Container}
    (hcd : h.Agree (n + 1) c.value d.value) (hearlier : ¬ h.Agree n c.value d.value)
    (hc : h.Provides c.value) (hd : h.Provides d.value)
    (hpath : ∀ p ∈ path, ¬ h.Agree (n + 1) p.1.value p.2.value)
    (hm : unvisited h.pairs path ≤ m) :
    (c, d) ∈ h.pairs ∧ (c, d) ∉ path ∧
      (∀ p ∈ (c, d) :: path, ¬ h.Agree n p.1.value p.2.value) ∧
      unvisited h.pairs ((c, d) :: path) ≤ m - 1 := by
  have hmem := mem_pairs_of_provides hc hd
  have hnew : (c, d) ∉ path := fun hin => hpath _ hin hcd
  have hlt := unvisited_cons_lt hmem hnew
  refine ⟨hmem, hnew, List.forall_mem_cons.2 ⟨hearlier, ?_⟩, by omega⟩
  exact fun p hp hagree => hpath p hp hagree.succ

/-- What agrees is found equal by a walk on which no pair agrees in so few steps. -/
theorem equalUpTo_of_agree {path : List (Container × Container)} (hvw : h.Agree n v w)
    (hv : h.Provides v) (hw : h.Provides w)
    (hpath : ∀ p ∈ path, ¬ h.Agree n p.1.value p.2.value)
    (hm : unvisited h.pairs path ≤ m) : h.equalUpTo m path v w = true := by
  induction n generalizing m path v w with
  | zero => exact hvw.elim
  | succ n ih =>
    have hpath' : ∀ p ∈ path, ¬ h.Agree n p.1.value p.2.value :=
      fun p hp hagree => hpath p hp hagree.succ
    rw [equalUpTo_eq]
    -- Errors are followed without a step, so they need an induction of their own.
    replace hvw : h.EqualBy (h.Agree n) v w := hvw
    induction hvw with
    | undefined => rfl
    | bool b => exact beq_self_eq_true b
    | int n => exact beq_self_eq_true n
    | float hxy => exact hxy
    | string s => exact beq_self_eq_true s
    | sameArray ref => cases m <;> simp [Value.equalWith, equalUpTo]
    | @array a b hitems =>
      show h.equalUpTo m path (.array a) (.array b) = true
      -- A pair on the path agrees in fewer steps or not at all: only one that takes all of the
      -- steps is followed, and it cannot be on the path.
      by_cases hearlier : h.Agree n (.array a) (.array b)
      · exact ih hearlier hv hw hpath' hm
      · obtain ⟨hmem, hnew, hpath', hm'⟩ := follows (c := .array a) (d := .array b)
          (.array hitems) hearlier hv hw hpath hm
        have hfound : Array.isEqv (h.arrayAt a) (h.arrayAt b)
            (h.equalUpTo (m - 1) ((.array a, .array b) :: path)) = true := by
          rw [← Array.isEqv_toList, isEqv_iff_forall₂]
          refine forall₂_imp_of_mem hitems fun x y hx hy hxy => ?_
          exact ih hxy (hv.of_contains (.element (Array.mem_toList_iff.1 hx) (.refl x)))
            (hw.of_contains (.element (Array.mem_toList_iff.1 hy) (.refl y))) hpath' hm'
        rw [equalUpTo_array hmem hm, hfound]
        simp [hnew]
    | sameMap ref => cases m <;> simp [Value.equalWith, equalUpTo]
    | @map a b hfields =>
      show h.equalUpTo m path (.map a) (.map b) = true
      by_cases hearlier : h.Agree n (.map a) (.map b)
      · exact ih hearlier hv hw hpath' hm
      · obtain ⟨hmem, hnew, hpath', hm'⟩ := follows (c := .map a) (d := .map b)
          (.map hfields) hearlier hv hw hpath hm
        have hfound : fieldsEqual (h.equalUpTo (m - 1) ((.map a, .map b) :: path)) (h.mapAt a)
            (h.mapAt b) = true := by
          refine fieldsEqual_iff.2 (forall₂_imp_of_mem hfields fun p q hp hq hpq => ⟨hpq.1, ?_⟩)
          exact ih hpq.2 (hv.of_contains (.field hp (.refl p.2)))
            (hw.of_contains (.field hq (.refl q.2))) hpath' hm'
        rw [equalUpTo_map hmem hm, hfound]
        simp [hnew]
    | error _ ihp =>
      exact ihp (hv.of_contains (.payload (.refl _))) (hw.of_contains (.payload (.refl _)))
    | function hfg => exact hfg
    | builtin hbc => exact hbc

/-- Whatever the path and the depth, a walk answers the question of agreement. -/
theorem equal_iff_agree (hv : h.Provides v) (hw : h.Provides w) :
    h.equal v w = true ↔ ∃ n, h.Agree n v w := by
  constructor
  · exact fun hvw => ⟨_, agree_of_equalUpTo hvw⟩
  · rintro ⟨n, hn⟩
    exact equalUpTo_of_agree hn hv hw nofun (h.length_pairs ▸ unvisited_le ..)

/-- Equality is equality by equality of what containers hold. -/
theorem equal_iff_equalBy (hv : h.Provides v) (hw : h.Provides w) :
    h.equal v w = true ↔ h.EqualBy (fun a b => h.equal a b = true) v w := by
  have hheld {a b : Value} (ha : h.Contains v a) (hb : h.Contains w b) :=
    equal_iff_agree (hv.of_contains ha) (hw.of_contains hb)
  rw [equal_iff_agree hv hw]
  constructor
  · rintro ⟨n, hn⟩
    cases n with
    | zero => exact hn.elim
    | succ n => exact EqualBy.imp hn fun a b ha hb hab => (hheld ha hb).2 ⟨n, hab⟩
  · intro hvw
    exact (hvw.imp fun a b ha hb hab => (hheld ha hb).1 hab).exists_agree

/-! ## The laws -/

abbrev Equal (h : Heap) (v w : Value) : Prop := h.equal v w = true

/-- Errors are equal if their payloads are. -/
theorem equal_error (h : Heap) (v w : Value) : h.equal (.error v) (.error w) = h.equal v w :=
  (h.equalUpTo_eq _ [] (.error v) (.error w)).trans (h.equalUpTo_eq _ [] v w).symm

variable {a b c : Value}

/-- Equality is symmetric and transitive, and only NaNs, bare or in errors, differ from themselves.
Equal values are of one type, equally true and equally long, and stay equal when errors or
containers are put around them, in which everything else is equal too. -/
theorem equal_partialEquivalence (ha : h.Provides a) (hb : h.Provides b) (hc : h.Provides c) :
    (h.Equal a b → h.Equal b a) ∧
    (h.Equal a b → h.Equal b c → h.Equal a c) ∧
    (h.Equal a a ↔ ¬ a.WrapsNaN) ∧
    (h.Equal a b →
      a.typeName = b.typeName ∧ h.isFalsy a = h.isFalsy b ∧
      CoreBuiltin.lengthOf h a = CoreBuiltin.lengthOf h b ∧
      h.Equal (.error a) (.error b) ∧
      (∀ x y front back front' back', h.Provides (.array x) → h.Provides (.array y) →
        (h.arrayAt x).toList = front ++ a :: back → (h.arrayAt y).toList = front' ++ b :: back' →
        List.Forall₂ h.Equal front front' → List.Forall₂ h.Equal back back' →
        h.Equal (.array x) (.array y)) ∧
      ∀ x y key front back front' back', h.Provides (.map x) → h.Provides (.map y) →
        (h.mapAt x).entries = front ++ (key, a) :: back →
        (h.mapAt y).entries = front' ++ (key, b) :: back' →
        List.Forall₂ (FieldsBy h.Equal) front front' →
        List.Forall₂ (FieldsBy h.Equal) back back' → h.Equal (.map x) (.map y)) := by
  refine ⟨?_, ?_, ?_, fun hab => ?_⟩
  · rw [Equal, Equal, equal_iff_agree ha hb, equal_iff_agree hb ha]
    exact Exists.imp fun n => Agree.symm
  · rw [Equal, Equal, Equal, equal_iff_agree ha hb, equal_iff_agree hb hc, equal_iff_agree ha hc]
    rintro ⟨m, hm⟩ ⟨n, hn⟩
    exact ⟨max m n, (hm.mono (Nat.le_max_left m n)).trans (hn.mono (Nat.le_max_right m n))⟩
  · rw [Equal, equal_iff_equalBy ha ha, EqualBy.self_iff]
  · have hstep := (equal_iff_equalBy ha hb).1 hab
    refine ⟨hstep.typeName_eq, hstep.isFalsy_eq, hstep.lengthOf_eq, ?_, ?_, ?_⟩
    · rwa [Equal, equal_error]
    · intro x y front back front' back' hx hy hxs hys hfront hback
      refine (equal_iff_equalBy hx hy).2 (.array ?_)
      rw [hxs, hys]
      exact List.rel_append hfront (.cons hab hback)
    · intro x y key front back front' back' hx hy hxs hys hfront hback
      refine (equal_iff_equalBy hx hy).2 (.map ?_)
      rw [hxs, hys]
      exact List.rel_append hfront (.cons ⟨rfl, hab⟩ hback)

/-! ### A NaN that is shared

Three arrays hold one array with a NaN in it, and a zero of either sign. Two more hold two of them.
-/

def heapOfNaN : Heap where
  arrays := #[#[.float ⟨0x7ff8000000000000⟩], #[.array ⟨0⟩, .float ⟨0⟩],
    #[.array ⟨0⟩, .float ⟨0x8000000000000000⟩], #[.array ⟨0⟩, .float ⟨0⟩],
    #[.int 7, .array ⟨1⟩], #[.int 7, .array ⟨2⟩]]

def partsOfNaN : List Value :=
  [.array ⟨0⟩, .array ⟨1⟩, .array ⟨2⟩, .array ⟨3⟩, .array ⟨4⟩, .array ⟨5⟩,
    .float ⟨0x7ff8000000000000⟩, .float ⟨0⟩, .float ⟨0x8000000000000000⟩, .int 7]

theorem provides_heapOfNaN (hv : v ∈ partsOfNaN) : heapOfNaN.Provides v := by
  rintro k i ⟨w, hw, hobject⟩
  have hmem : w ∈ partsOfNaN := by
    refine hw.of_closed hv (fun c u hc hu => ?_) (fun u hu => by simp [partsOfNaN] at hu)
    cases hu with
    | @element ref u hu =>
      have hu : u ∈ (heapOfNaN.arrayAt ref).toList := Array.mem_toList_iff.2 hu
      have href : ref = ⟨0⟩ ∨ ref = ⟨1⟩ ∨ ref = ⟨2⟩ ∨ ref = ⟨3⟩ ∨ ref = ⟨4⟩ ∨ ref = ⟨5⟩ := by
        simpa [partsOfNaN] using hc
      revert u
      rcases href with rfl | rfl | rfl | rfl | rfl | rfl <;> decide
    | field => simp [partsOfNaN] at hc
  have hparts : ∀ u ∈ partsOfNaN, ∀ p ∈ u.object?, p.2 < heapOfNaN.count p.1 := by decide
  exact hparts w hmem (k, i) hobject

theorem equal_partialEquivalence_sharedNaN :
    heapOfNaN.Equal (.array ⟨2⟩) (.array ⟨1⟩) ∧ heapOfNaN.Equal (.array ⟨1⟩) (.array ⟨3⟩) ∧
      heapOfNaN.Equal (.array ⟨0⟩) (.array ⟨0⟩) ∧
      ¬ heapOfNaN.Equal (.float ⟨0x7ff8000000000000⟩) (.float ⟨0x7ff8000000000000⟩) ∧
      heapOfNaN.Equal (.array ⟨4⟩) (.array ⟨5⟩) := by
  have hprovides (i : Nat) (hi : i < 6) : heapOfNaN.Provides (.array ⟨i⟩) := by
    refine provides_heapOfNaN ?_
    revert i
    decide
  have hnan : heapOfNaN.Provides (.float ⟨0x7ff8000000000000⟩) :=
    provides_heapOfNaN (by decide)
  have h12 : heapOfNaN.Equal (.array ⟨1⟩) (.array ⟨2⟩) := by decide +kernel
  have h23 : heapOfNaN.Equal (.array ⟨2⟩) (.array ⟨3⟩) := by decide +kernel
  have h7 : heapOfNaN.Equal (.int 7) (.int 7) := by decide +kernel
  obtain ⟨hsymm, htrans, -, hwrap⟩ := equal_partialEquivalence (hprovides 1 (by decide))
    (hprovides 2 (by decide)) (hprovides 3 (by decide))
  obtain ⟨-, -, hself, -⟩ := equal_partialEquivalence (hprovides 0 (by decide)) hnan hnan
  obtain ⟨-, -, hdiffers, -⟩ := equal_partialEquivalence hnan hnan hnan
  obtain ⟨-, -, -, -, harrays, -⟩ := hwrap h12
  refine ⟨hsymm h12, htrans h12 h23, hself.2 nofun, fun heq => hdiffers.1 heq (.float rfl), ?_⟩
  exact harrays ⟨4⟩ ⟨5⟩ [.int 7] [] [.int 7] [] (hprovides 4 (by decide)) (hprovides 5 (by decide))
    rfl rfl (.cons h7 .nil) .nil

end Heap
end ScriptVM
