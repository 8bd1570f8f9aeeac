import ScriptVM.Proofs.HostValues

/-!
# Reading host values

Which script values are of a host type is said by `Inhabits`, and where a value fails to be of the
type by `FirstMismatch`, which goes through elements in their order and through fields in the order
of their keys. Reading accepts exactly the values of the type, and otherwise tells the first
mismatch. What has been read loses nothing: whatever it becomes as a script value shows what was
read, where `Restores` says what that is, with new containers for lists and maps.

No value has to be acyclic for this. A type looks into a value only as deep as the type is nested.
-/

namespace ScriptVM

/-! ## Several readings

Lists are read element by element, up to the first that cannot be read. So are the fields of a map,
in the order of their keys.
-/

section

variable {α β : Type} {f : α → Except Fault β} {e : Fault}

/-- All of them succeed, and their results come in order. -/
theorem mapM_eq_ok_iff {xs : List α} {ys : List β} :
    xs.mapM f = .ok ys ↔ List.Forall₂ (fun x y => f x = .ok y) xs ys := by
  constructor
  · intro h
    induction xs generalizing ys with
    | nil =>
      cases h
      exact .nil
    | cons x xs ih =>
      rw [List.mapM_cons] at h
      cases hx : f x with
      | error e' => simp [bind, Except.bind, hx] at h
      | ok y =>
        cases hxs : xs.mapM f with
        | error e' => simp [bind, Except.bind, hx, hxs] at h
        | ok ys' =>
          simp only [bind, Except.bind, pure, Except.pure, hx, hxs] at h
          cases h
          exact .cons hx (ih hxs)
  · intro h
    induction h with
    | nil => rfl
    | cons hx _ ih =>
      rw [List.mapM_cons, hx, ih]
      rfl

/-- Of several readings the first fault is told. -/
theorem mapM_eq_error_iff {xs : List α} :
    xs.mapM f = .error e ↔ ∃ before x after, xs = before ++ x :: after ∧
      (∀ b ∈ before, ∃ y, f b = .ok y) ∧ f x = .error e := by
  constructor
  · intro h
    induction xs with
    | nil => cases h
    | cons x xs ih =>
      rw [List.mapM_cons] at h
      cases hx : f x with
      | error e' =>
        rw [hx] at h
        cases h
        exact ⟨[], x, xs, rfl, by simp, hx⟩
      | ok y =>
        cases hxs : xs.mapM f with
        | ok ys => simp [bind, Except.bind, pure, Except.pure, hx, hxs] at h
        | error e' =>
          simp only [bind, Except.bind, hx, hxs] at h
          cases h
          obtain ⟨before, u, after, rfl, hbefore, hu⟩ := ih hxs
          exact ⟨x :: before, u, after, rfl, List.forall_mem_cons.2 ⟨⟨y, hx⟩, hbefore⟩, hu⟩
  · rintro ⟨before, x, after, rfl, hbefore, hx⟩
    induction before with
    | nil => simp [bind, Except.bind, hx]
    | cons b before ih =>
      obtain ⟨⟨y, hy⟩, hbefore⟩ := List.forall_mem_cons.1 hbefore
      simp [bind, Except.bind, hy, ih hbefore]

/-- Reading the fields of a map is reading its values. -/
theorem values_traverse (x : FieldMap α) :
    (x.traverse f).map (fun y => y.entries.map Prod.snd) = (x.entries.map Prod.snd).mapM f := by
  have hentries : ∀ entries : List (String × α),
      (FieldMap.traverseEntries f entries).map (fun r => r.1.map Prod.snd) =
        (entries.map Prod.snd).mapM f := by
    intro entries
    induction entries with
    | nil => rfl
    | cons p entries ih =>
      show _ = (p.2 :: entries.map Prod.snd).mapM f
      rw [List.mapM_cons, ← ih, FieldMap.traverseEntries]
      cases f p.2 with
      | error e => rfl
      | ok b => cases FieldMap.traverseEntries f entries <;> rfl
  rw [← hentries, FieldMap.traverse]
  cases FieldMap.traverseEntries f x.entries <;> rfl

/-- Reading the fields leaves their names. -/
theorem keys_of_traverse {x : FieldMap α} {y : FieldMap β} (h : x.traverse f = .ok y) :
    y.entries.map Prod.fst = x.entries.map Prod.fst := by
  rw [FieldMap.traverse] at h
  cases hr : FieldMap.traverseEntries f x.entries with
  | error e => simp [hr, bind, Except.bind] at h
  | ok r =>
    simp only [hr, bind, Except.bind, pure, Except.pure] at h
    cases h
    exact r.2

theorem traverse_eq_error_iff {x : FieldMap α} :
    x.traverse f = .error e ↔ (x.entries.map Prod.snd).mapM f = .error e := by
  rw [← values_traverse]
  cases x.traverse f <;> simp [Except.map]

/-- Names and values are read apart. -/
theorem traverse_eq_ok_iff {x : FieldMap α} {y : FieldMap β} :
    x.traverse f = .ok y ↔ y.entries.map Prod.fst = x.entries.map Prod.fst ∧
      (x.entries.map Prod.snd).mapM f = .ok (y.entries.map Prod.snd) := by
  rw [← values_traverse]
  constructor
  · intro h
    refine ⟨keys_of_traverse h, ?_⟩
    rw [h]
    rfl
  · rintro ⟨hkeys, hvalues⟩
    cases h : x.traverse f with
    | error e => simp [h, Except.map] at hvalues
    | ok z =>
      have hz : z.entries.map Prod.snd = y.entries.map Prod.snd := by
        simpa [h, Except.map] using hvalues
      have hentries : z.entries = y.entries :=
        (List.zip_of_prod ((keys_of_traverse h).trans hkeys.symm) hz).trans
          (List.zip_of_prod rfl rfl).symm
      rw [FieldMap.eq_of_entries_eq hentries]

end

namespace HostType

/-! ## The values of a type

Some types ask for nothing but a certain kind of value, some ask for more of an integer, and some go
on to ask something of the values that a container holds.
-/

/-- What a type asks of a value itself, whatever the value holds. -/
def Admits : HostType → Value → Prop
  | unit, v => v = .undefined
  | bool, v => ∃ b, v = .bool b
  | int32, v => ∃ n, v = .int n ∧ Int32.minValue.toInt ≤ n.toInt ∧ n.toInt ≤ Int32.maxValue.toInt
  | int64, v => ∃ n, v = .int n
  | size, v => ∃ n, v = .int n ∧ 0 ≤ n.toInt
  | float, v => (∃ n, v = .int n) ∨ ∃ x, v = .float x
  | string, v => ∃ s, v = .string s
  | list _, v => ∃ ref, v = .array ref
  | map _, v => ∃ ref, v = .map ref
  | value, _ | option _, _ => True

def Inhabits (h : Heap) : HostType → Value → Prop
  | option t, v => v = .undefined ∨ t.Inhabits h v
  | list t, v => ∃ ref, v = .array ref ∧ ∀ u ∈ (h.arrayAt ref).toList, t.Inhabits h u
  | map t, v =>
    ∃ ref, v = .map ref ∧ ∀ u ∈ (h.mapAt ref).entries.map Prod.snd, t.Inhabits h u
  | t, v => t.Admits v

/-- How it is told what is asked of a value itself. -/
def expects : HostType → Value → String
  | unit, _ => "undefined"
  | bool, _ => "bool"
  | int32, .int _ => "int in i32 range"
  | int32, _ | int64, _ => "int"
  | size, _ => "non-negative int"
  | float, _ => "float"
  | string, _ => "string"
  | list _, _ => "array"
  | map _, _ => "map"
  -- Nothing is asked that could be missing.
  | value, _ | option _, _ => ""

/-- The first mismatch of a value with a type is at `found`, where something else is expected. What
comes before it is as it should be. -/
inductive FirstMismatch (h : Heap) : HostType → Value → String → Value → Prop where
  | here {t : HostType} {v : Value} (hv : ¬ t.Admits v) : FirstMismatch h t v (t.expects v) v
  | present {t : HostType} {v found : Value} {expected : String} (hv : v ≠ .undefined)
    (hrest : FirstMismatch h t v expected found) : FirstMismatch h (option t) v expected found
  | element {t : HostType} {ref : ArrayRef} {before after : List Value} {v found : Value}
    {expected : String} (hitems : (h.arrayAt ref).toList = before ++ v :: after)
    (hbefore : ∀ u ∈ before, t.Inhabits h u) (hv : FirstMismatch h t v expected found) :
    FirstMismatch h (list t) (.array ref) expected found
  | field {t : HostType} {ref : MapRef} {before after : List Value} {v found : Value}
    {expected : String} (hvalues : (h.mapAt ref).entries.map Prod.snd = before ++ v :: after)
    (hbefore : ∀ u ∈ before, t.Inhabits h u) (hv : FirstMismatch h t v expected found) :
    FirstMismatch h (map t) (.map ref) expected found

variable {t : HostType} {h : Heap} {v : Value} {e : Fault}

/-- A value that is of a type is admitted by it. -/
theorem Inhabits.admits (hv : t.Inhabits h v) : t.Admits v := by
  cases t with
  | list t =>
    obtain ⟨ref, rfl, -⟩ := hv
    exact ⟨ref, rfl⟩
  | map t =>
    obtain ⟨ref, rfl, -⟩ := hv
    exact ⟨ref, rfl⟩
  | option t => trivial
  | _ => exact hv

/-- Where there is a mismatch, the value is not of the type. -/
theorem FirstMismatch.not_inhabits {expected : String} {found : Value}
    (hv : t.FirstMismatch h v expected found) : ¬ t.Inhabits h v := by
  induction hv with
  | here hv => exact fun hin => hv hin.admits
  | present hv _ ih =>
    rintro (heq | hin)
    · exact hv heq
    · exact ih hin
  | element hitems _ _ ih =>
    rintro ⟨_, heq, hall⟩
    cases heq
    exact ih (hall _ (by simp [hitems]))
  | field hvalues _ _ ih =>
    rintro ⟨_, heq, hall⟩
    cases heq
    exact ih (hall _ (by simp [hvalues]))

/-- The fault of a first mismatch. -/
def Tells (t : HostType) (h : Heap) (v : Value) (e : Fault) : Prop :=
  ∃ expected found, t.FirstMismatch h v expected found ∧ e = mismatch expected found

/-! ## Reading -/

/-- Anything but `undefined` is read as the type that may be missing. -/
theorem ofValue_option (hv : v ≠ .undefined) :
    (option t).ofValue h v = (t.ofValue h v).map some := by
  cases v <;> first | rfl | exact absurd rfl hv

/-- The reading of a value is as it should be: what is read is of the type, and what is not read is
told. -/
def Answers (t : HostType) (h : Heap) (v : Value) : Except Fault t.Carrier → Prop
  | .ok _ => t.Inhabits h v
  | .error e => t.Tells h v e

/-- A value that is not admitted is the mismatch itself. -/
theorem answers_here (hv : ¬ t.Admits v) :
    t.Answers h v (.error (mismatch (t.expects v) v)) :=
  ⟨_, _, .here hv, rfl⟩

/-- Of several values, all that are read are of the type, and of those that are not read the first
is told. -/
theorem answers_mapM (hv : ∀ v, t.Answers h v (t.ofValue h v)) (vs : List Value) :
    match vs.mapM (t.ofValue h) with
    | .ok _ => ∀ u ∈ vs, t.Inhabits h u
    | .error e => ∃ before u after, vs = before ++ u :: after ∧
        (∀ w ∈ before, t.Inhabits h w) ∧ t.Tells h u e := by
  have hread {u : Value} {x : t.Carrier} (hu : t.ofValue h u = .ok x) : t.Inhabits h u := by
    have hanswers := hv u
    rwa [hu] at hanswers
  cases hvs : vs.mapM (t.ofValue h) with
  | ok xs =>
    intro u hu
    obtain ⟨x, hx⟩ := exists_of_forall₂ (mapM_eq_ok_iff.1 hvs) hu
    exact hread hx
  | error e =>
    obtain ⟨before, u, after, rfl, hbefore, hu⟩ := mapM_eq_error_iff.1 hvs
    refine ⟨before, u, after, rfl, fun w hw => ?_, ?_⟩
    · obtain ⟨x, hx⟩ := hbefore w hw
      exact hread hx
    · have hanswers := hv u
      rwa [hu] at hanswers

/-! ## Reading, type by type

For each type it is shown that reading answers as it should, provided that it does for the types in
it. The last theorem is the induction over types.
-/

/-- A type that asks for a range admits an integer if it is in the range. -/
theorem answers_range {p : Prop} [Decidable p] {n : Int64} {x : t.Carrier}
    (hin : p → t.Inhabits h (.int n)) (hout : ¬ p → ¬ t.Admits (.int n)) :
    t.Answers h (.int n)
      (if p then .ok x else .error (mismatch (t.expects (.int n)) (.int n))) := by
  split
  · next hp => exact hin hp
  · next hp => exact answers_here (hout hp)

/-- An integer that does not fit 32 bits is told to be out of range, and anything else to be no
integer. -/
theorem answers_int32 : int32.Answers h v (int32.ofValue h v) := by
  cases v with
  | int n =>
    refine answers_range (fun hn => ⟨n, rfl, hn⟩) fun hn => ?_
    rintro ⟨_, heq, hrange⟩
    cases heq
    exact hn hrange
  | _ => exact answers_here (by simp [Admits])

theorem answers_size : size.Answers h v (size.ofValue h v) := by
  cases v with
  | int n =>
    refine answers_range (fun hn => ⟨n, rfl, Int64.le_iff_toInt_le.1 hn⟩) fun hn => ?_
    rintro ⟨_, heq, hrange⟩
    cases heq
    exact hn (Int64.le_iff_toInt_le.2 hrange)
  | _ => exact answers_here (by simp [Admits])

theorem answers_option (hv : t.Answers h v (t.ofValue h v)) :
    (option t).Answers h v ((option t).ofValue h v) := by
  by_cases hdefined : v = .undefined
  · subst hdefined
    exact .inl rfl
  · rw [ofValue_option hdefined]
    cases hr : t.ofValue h v with
    | ok x =>
      rw [hr] at hv
      exact .inr hv
    | error e =>
      rw [hr] at hv
      obtain ⟨expected, found, hmismatch, rfl⟩ := hv
      exact ⟨expected, found, .present hdefined hmismatch, rfl⟩

/-- Elements are read in order, so the first mismatch is in the first of them that has one. -/
theorem answers_list (hv : ∀ v, t.Answers h v (t.ofValue h v)) :
    (list t).Answers h v ((list t).ofValue h v) := by
  cases v with
  | array ref =>
    have hitems := answers_mapM hv (h.arrayAt ref).toList
    rw [ofValue]
    cases hr : (h.arrayAt ref).toList.mapM (t.ofValue h) with
    | ok xs =>
      rw [hr] at hitems
      exact ⟨ref, rfl, hitems⟩
    | error e =>
      rw [hr] at hitems
      obtain ⟨before, u, after, heq, hbefore, expected, found, hmismatch, rfl⟩ := hitems
      exact ⟨expected, found, .element heq hbefore hmismatch, rfl⟩
  | _ => exact answers_here (by simp [Admits])

/-- The values of a map are read in the order of their keys. -/
theorem answers_map (hv : ∀ v, t.Answers h v (t.ofValue h v)) :
    (map t).Answers h v ((map t).ofValue h v) := by
  cases v with
  | map ref =>
    have hvalues := answers_mapM hv ((h.mapAt ref).entries.map Prod.snd)
    rw [ofValue]
    cases hr : (h.mapAt ref).traverse (t.ofValue h) with
    | ok fields =>
      rw [(traverse_eq_ok_iff.1 hr).2] at hvalues
      exact ⟨ref, rfl, hvalues⟩
    | error e =>
      rw [traverse_eq_error_iff.1 hr] at hvalues
      obtain ⟨before, u, after, heq, hbefore, expected, found, hmismatch, rfl⟩ := hvalues
      exact ⟨expected, found, .field heq hbefore hmismatch, rfl⟩
  | _ => exact answers_here (by simp [Admits])

/-- What is read is of the type, and what is not read is told. -/
theorem answers_ofValue (t : HostType) (h : Heap) (v : Value) :
    t.Answers h v (t.ofValue h v) := by
  induction t generalizing v with
  | unit =>
    cases v with
    | undefined => exact rfl
    | _ => exact answers_here (by simp [Admits])
  | bool =>
    cases v with
    | bool b => exact ⟨b, rfl⟩
    | _ => exact answers_here (by simp [Admits])
  | int32 => exact answers_int32
  | int64 =>
    cases v with
    | int n => exact ⟨n, rfl⟩
    | _ => exact answers_here (by simp [Admits])
  | size => exact answers_size
  | float =>
    cases v with
    | int n => exact .inl ⟨n, rfl⟩
    | float x => exact .inr ⟨x, rfl⟩
    | _ => exact answers_here (by simp [Admits])
  | string =>
    cases v with
    | string s => exact ⟨s, rfl⟩
    | _ => exact answers_here (by simp [Admits])
  | value => trivial
  | option t ih => exact answers_option (ih v)
  | list t ih => exact answers_list ih
  | map t ih => exact answers_map ih

/-- What can be read is of the type. -/
theorem inhabits_of_ofValue {x : t.Carrier} (hx : t.ofValue h v = .ok x) : t.Inhabits h v := by
  have hanswers := answers_ofValue t h v
  rwa [hx] at hanswers

theorem tells_of_ofValue (he : t.ofValue h v = .error e) : t.Tells h v e := by
  have hanswers := answers_ofValue t h v
  rwa [he] at hanswers

/-- What is of the type can be read. -/
theorem Inhabits.exists_ofValue (hv : t.Inhabits h v) : ∃ x, t.ofValue h v = .ok x := by
  cases hx : t.ofValue h v with
  | ok x => exact ⟨x, rfl⟩
  | error e =>
    obtain ⟨expected, found, hmismatch, -⟩ := tells_of_ofValue hx
    exact absurd hv hmismatch.not_inhabits

/-- A first mismatch is the one that is told, so there is only one. -/
theorem FirstMismatch.ofValue {expected : String} {found : Value}
    (hv : t.FirstMismatch h v expected found) :
    t.ofValue h v = .error (mismatch expected found) := by
  induction hv with
  -- Any other mismatch that could be told lies within a value of the type, which `v` is not.
  | @here t v hv =>
    cases hx : t.ofValue h v with
    | ok x => exact absurd (inhabits_of_ofValue hx).admits hv
    | error e =>
      obtain ⟨expected, found, hmismatch, rfl⟩ := tells_of_ofValue hx
      cases hmismatch with
      | here _ => rfl
      | present _ _ => exact absurd trivial hv
      | element _ _ _ => exact absurd ⟨_, rfl⟩ hv
      | field _ _ _ => exact absurd ⟨_, rfl⟩ hv
  | present hv _ ih =>
    rw [ofValue_option hv, ih]
    rfl
  | element hitems hbefore _ ih =>
    rw [HostType.ofValue]
    exact mapM_eq_error_iff.2 ⟨_, _, _, hitems, fun u hu => (hbefore u hu).exists_ofValue, ih⟩
  | field hvalues hbefore _ ih =>
    rw [HostType.ofValue]
    exact traverse_eq_error_iff.2 (mapM_eq_error_iff.2
      ⟨_, _, _, hvalues, fun u hu => (hbefore u hu).exists_ofValue, ih⟩)

/-! ## Making again what has been read -/

/-- What `v` in `h` may have become in `h'` after being read as the type and made again: the same
value, but for integers where the type has floats, and for containers, which hold the same. -/
def Restores (h h' : Heap) : HostType → Value → Value → Prop
  | float, v, w => v.asNumber?.map .float = some w
  | option t, v, w => v = .undefined ∧ w = .undefined ∨ t.Restores h h' v w
  | list t, v, w =>
    ∃ ref ref', v = .array ref ∧ w = .array ref' ∧
      List.Forall₂ (t.Restores h h') (h.arrayAt ref).toList (h'.arrayAt ref').toList
  | map t, v, w =>
    ∃ ref ref', v = .map ref ∧ w = .map ref' ∧
      (h'.mapAt ref').entries.map Prod.fst = (h.mapAt ref).entries.map Prod.fst ∧
      List.Forall₂ (t.Restores h h') ((h.mapAt ref).entries.map Prod.snd)
        ((h'.mapAt ref').entries.map Prod.snd)
  | _, v, w => w = v

variable {h' : Heap}

/-- An integer that is read from the range of 32 bits is made again. -/
theorem toInt64_toInt32 {n : Int64}
    (hn : Int32.minValue.toInt ≤ n.toInt ∧ n.toInt ≤ Int32.maxValue.toInt) :
    n.toInt32.toInt64 = n := by
  have hmin : Int32.minValue.toInt = -2147483648 := rfl
  have hmax : Int32.maxValue.toInt = 2147483647 := rfl
  apply Int64.toInt_inj.1
  rw [Int32.toInt_toInt64, Int64.toInt_toInt32]
  exact Int.bmod_eq_of_le (by omega) (by omega)

/-- Several values are restored one by one. -/
theorem restores_all {vs ws : List Value} {xs : List t.Carrier}
    (hrestores : ∀ {v w x}, t.ofValue h v = .ok x → t.Represents h' x w → t.Restores h h' v w)
    (hvs : vs.mapM (t.ofValue h) = .ok xs) (hws : List.Forall₂ (t.Represents h') xs ws) :
    List.Forall₂ (t.Restores h h') vs ws := by
  replace hvs := mapM_eq_ok_iff.1 hvs
  induction hvs generalizing ws with
  | nil =>
    cases hws
    exact .nil
  | cons hx _ ih =>
    cases hws with
    | cons hw hws => exact .cons (hrestores hx hw) (ih hws)

/-- What stands for a host value that has been read restores what it was read from. -/
theorem restores_of_represents {x : t.Carrier} {w : Value} (hx : t.ofValue h v = .ok x)
    (hw : t.Represents h' x w) : t.Restores h h' v w := by
  have hin := inhabits_of_ofValue hx
  induction t generalizing v w with
  | unit => exact hw.trans hin.symm
  | bool | string =>
    obtain ⟨_, rfl⟩ := hin
    cases hx
    exact hw
  | int32 =>
    obtain ⟨n, rfl, hn⟩ := hin
    rw [ofValue, if_pos hn] at hx
    cases hx
    exact hw.trans (congrArg Value.int (toInt64_toInt32 hn))
  | int64 =>
    obtain ⟨n, rfl⟩ := hin
    cases hx
    exact hw
  | size =>
    obtain ⟨n, rfl, hn⟩ := hin
    rw [ofValue, if_pos (Int64.le_iff_toInt_le.2 hn : 0 ≤ n)] at hx
    cases hx
    exact hw.trans (congrArg Value.int n.toInt64_toUInt64)
  | float =>
    rcases hin with ⟨n, rfl⟩ | ⟨y, rfl⟩
    all_goals
      cases hx
      exact congrArg some hw.symm
  | value =>
    cases hx
    exact hw
  | option t ih =>
    by_cases hv : v = .undefined
    · subst hv
      cases hx
      exact .inl ⟨rfl, hw⟩
    · rw [ofValue_option hv] at hx
      cases ha : t.ofValue h v with
      | error e => simp [ha, Except.map] at hx
      | ok a =>
        rw [ha] at hx
        cases hx
        exact .inr (ih ha hw (inhabits_of_ofValue ha))
  | list t ih =>
    obtain ⟨ref, rfl, -⟩ := hin
    obtain ⟨ref', rfl, hws⟩ := hw
    rw [ofValue] at hx
    refine ⟨ref, ref', rfl, rfl, restores_all ?_ hx hws⟩
    exact fun hx hw => ih hx hw (inhabits_of_ofValue hx)
  | map t ih =>
    obtain ⟨ref, rfl, -⟩ := hin
    obtain ⟨ref', rfl, hkeys, hws⟩ := hw
    rw [ofValue] at hx
    obtain ⟨hkeys', hvs⟩ := traverse_eq_ok_iff.1 hx
    exact ⟨ref, ref', rfl, rfl, hkeys.trans hkeys',
      restores_all (fun hx hw => ih hx hw (inhabits_of_ofValue hx)) hvs hws⟩

/-! ## What reading accepts and keeps -/

/-- Reading accepts exactly the values of the type. What has been read can be made into a script
value in any heap, and then restores the value that it was read from, while everything in the heap
stays, and with a new container for each list and map. What is not read is told at its first
mismatch. -/
theorem ofValue_exact (t : HostType) (h : Heap) (v : Value) :
    ((∃ x, t.ofValue h v = .ok x) ↔ t.Inhabits h v) ∧
    (∀ x, t.ofValue h v = .ok x → ∀ k : Heap,
      (∃ w k', t.toValue x k = .ok w k' ∧ t.Makes x k w k') ∧
      ∀ w k', t.Makes x k w k' →
        t.Restores h k' v w ∧
        (∀ kind i, i < k.count kind → k.Same k' kind i) ∧
        (∀ p ∈ t.built k' w, k.count p.1 ≤ p.2 ∧ p.2 < k'.count p.1) ∧
        (t.built k' w).Nodup) ∧
    ∀ e, t.ofValue h v = .error e ↔ ∃ expected found, t.FirstMismatch h v expected found ∧
      e = .invalidArgumentType "value" expected found.typeName := by
  refine ⟨⟨fun ⟨x, hx⟩ => inhabits_of_ofValue hx, Inhabits.exists_ofValue⟩, ?_, ?_⟩
  · intro x hx k
    refine ⟨exists_toValue t x k, fun w k' hw => ?_⟩
    have hmade := hw.made
    exact ⟨restores_of_represents hx hmade.represents, fun kind i hi => hmade.kept.same kind i
      trivial hi, hmade.added, hmade.once⟩
  · intro e
    constructor
    · exact tells_of_ofValue
    · rintro ⟨expected, found, hmismatch, rfl⟩
      exact hmismatch.ofValue

/-- A map of arrays is read as a map of lists of optional floats, and made again as such. One of its
arrays is no list of integers because of its second element. -/
theorem ofValue_exact_nested :
    let h : Heap := { arrays := #[#[.int 1, .undefined]], maps := #[.ofList [("a", .array ⟨0⟩)]] }
    let t := map (list (option float))
    (∃ x w h', t.ofValue h (.map ⟨0⟩) = .ok x ∧ t.toValue x h = .ok w h' ∧
      t.Restores h h' (.map ⟨0⟩) w ∧ (t.built h' w).Nodup) ∧
    (list int32).ofValue h (.array ⟨0⟩) =
      .error (.invalidArgumentType "value" "int" "undefined") := by
  intro h t
  constructor
  · have hexact := ofValue_exact t h (.map ⟨0⟩)
    have hin : t.Inhabits h (.map ⟨0⟩) := by
      refine ⟨⟨0⟩, rfl, fun u hu => ?_⟩
      cases List.mem_singleton.1 hu
      refine ⟨⟨0⟩, rfl, fun u hu => ?_⟩
      rcases List.mem_pair.1 hu with rfl | rfl
      · exact .inr (.inl ⟨1, rfl⟩)
      · exact .inl rfl
    obtain ⟨x, hx⟩ := hexact.1.2 hin
    obtain ⟨⟨w, h', hw, hmakes⟩, hmade⟩ := hexact.2.1 x hx h
    obtain ⟨hrestores, -, -, honce⟩ := hmade w h' hmakes
    exact ⟨x, w, h', hx, hw, hrestores, honce⟩
  · refine ((ofValue_exact (list int32) h (.array ⟨0⟩)).2.2 _).2 ⟨"int", .undefined, ?_, rfl⟩
    have hitems : (h.arrayAt ⟨0⟩).toList = [.int 1] ++ .undefined :: [] := rfl
    refine .element hitems (fun u hu => ?_) (.here (by simp [Admits]))
    cases List.mem_singleton.1 hu
    exact ⟨1, rfl, by decide⟩

end HostType
end ScriptVM
