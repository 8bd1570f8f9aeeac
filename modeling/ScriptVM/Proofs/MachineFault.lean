import ScriptVM.Builtin.Core
import ScriptVM.Container
import ScriptVM.Operator

/-!
# Faults of the machine

The faults of the machine itself are those that only malformed code runs into. What is done with
values and containers has other faults only, unless a function of the host answers with one.
-/

namespace ScriptVM

/-- The faults that only malformed code runs into. -/
def Fault.OfMachine : Fault → Prop
  | .stackUnderflow | .globalOutOfRange .. | .constantOutOfRange .. | .invalidOpcode _
  | .internal _ => True
  | _ => False

/-- If the fault is one of the machine, it is the answer of a function of the host. -/
def Fault.Excused (host : Host) (e : Fault) : Prop :=
  e.OfMachine → ∃ f args h h', host f args h = .error e h'

namespace HeapM

variable {α β : Type} {host : Host}

/-- The computation has no faults of the machine. -/
def Ordinary (host : Host) (x : HeapM α) : Prop :=
  ∀ h e h', x h = .error e h' → e.Excused host

/-- Sequencing adds no faults of its own. -/
theorem Ordinary.bind {x : HeapM α} {k : α → HeapM β} (hx : Ordinary host x)
    (hk : ∀ a, Ordinary host (k a)) : Ordinary host (x >>= k) := by
  intro h e h' heq
  simp only [Bind.bind, EStateM.bind] at heq
  cases hr : x h with
  | ok a h₁ =>
    rw [hr] at heq
    exact hk a h₁ e h' heq
  | error e₁ h₁ =>
    rw [hr] at heq
    cases heq
    exact hx h e h' hr

theorem ordinary_pure (a : α) : Ordinary host (pure a) := by
  intro h e h' heq
  cases heq

/-- A fault may be raised as long as it is not one of the machine. -/
theorem ordinary_throw {e : Fault} (he : e.Excused host) : Ordinary host (throw e : HeapM α) := by
  intro h e' h' heq
  cases heq
  exact he

theorem ordinary_modifyGet (f : Heap → α × Heap) : Ordinary host (modifyGet f) := by
  intro h e h' heq
  cases heq

theorem ordinary_get : Ordinary host get := by
  intro h e h' heq
  cases heq

/-- A check is ordinary if each of its faults is excused. -/
theorem ordinary_ofExcept {r : Except Fault α} (hr : ∀ e, r = .error e → e.Excused host) :
    Ordinary host (ofExcept r) := by
  cases r with
  | ok a => exact ordinary_pure a
  | error e => exact ordinary_throw (hr e rfl)

/-- What goes wrong with two integers is a zero divisor, a negative shift, or an operator that is
none. -/
theorem excused_onInts {op : Opcode} {a b : Int64} {e : Fault}
    (h : Operator.onInts op a b = .error e) : e.Excused host := by
  unfold Operator.onInts at h
  split at h
  all_goals try split at h
  all_goals cases h
  all_goals exact False.elim

/-- No pair of values makes an operator fail like the machine does: types that do not fit are told
so. -/
theorem ordinary_binary (op : Opcode) (left right : Value) :
    Ordinary host (Operator.binary op left right) := by
  unfold Operator.binary
  split
  · exact (ordinary_ofExcept fun _ h => excused_onInts h).bind fun _ => ordinary_pure _
  · split
    · split
      · exact ordinary_pure _
      · exact ordinary_throw False.elim
    · unfold Operator.onOthers
      split
      · exact ordinary_get.bind fun _ => ordinary_pure _
      · exact ordinary_get.bind fun _ => ordinary_modifyGet _
      · exact ordinary_throw False.elim

theorem excused_unary {op : Opcode} {v : Value} {e : Fault}
    (h : Operator.unary op v = .error e) : e.Excused host := by
  unfold Operator.unary at h
  split at h <;> cases h
  exact False.elim

theorem excused_order {op : Opcode} {left right : Value} {e : Fault}
    (h : Operator.order op left right = .error e) : e.Excused host := by
  unfold Operator.order at h
  split at h <;> split at h <;> cases h <;> exact False.elim

/-- A container that is looked into in a wrong way says which types it got. -/
theorem excused_index {h : Heap} {receiver key : Value} {e : Fault}
    (he : h.index receiver key = .error e) : e.Excused host := by
  unfold Heap.index at he
  split at he <;> cases he <;> exact False.elim

/-- The same for a write: a place that is not there is named, and the machine is not to blame. -/
theorem ordinary_assign (receiver key v : Value) : Ordinary host (assign receiver key v) := by
  refine ordinary_get.bind fun h => (ordinary_ofExcept fun e he => ?_).bind fun _ =>
    ordinary_modifyGet _
  unfold Heap.place at he
  split at he
  · dsimp only at he
    split at he
    · split at he <;> cases he
      exact False.elim
    · cases he
      exact False.elim
  all_goals cases he
  all_goals exact False.elim

/-- A bound is refused for its type only. -/
theorem excused_sliceBound {receiver bound : Value} {openEnd length : Nat} {e : Fault}
    (h : sliceBound receiver bound openEnd length = .error e) : e.Excused host := by
  unfold sliceBound at h
  split at h <;> cases h
  exact False.elim

theorem excused_sliceBounds {receiver low high : Value} {length : Nat} {e : Fault}
    (h : sliceBounds receiver low high length = .error e) : e.Excused host := by
  unfold sliceBounds at h
  cases hl : sliceBound receiver low 0 length with
  | error e' =>
    rw [hl] at h
    cases h
    exact excused_sliceBound hl
  | ok l =>
    rw [hl] at h
    cases hr : sliceBound receiver high length length with
    | error e' =>
      rw [hr] at h
      cases h
      exact excused_sliceBound hr
    | ok r =>
      rw [hr] at h
      simp only [bind, Except.bind] at h
      split at h <;> cases h
      exact False.elim

theorem ordinary_slice (receiver low high : Value) : Ordinary host (slice receiver low high) := by
  refine ordinary_get.bind fun h => (ordinary_ofExcept fun e he => ?_).bind fun length =>
    (ordinary_ofExcept fun e he => excused_sliceBounds he).bind fun bounds => ?_
  · unfold Heap.sliceLength at he
    split at he <;> cases he
    exact False.elim
  · obtain ⟨l, r⟩ := bounds
    dsimp only
    split
    · exact ordinary_modifyGet _
    · exact ordinary_pure _
    · exact ordinary_pure _

/-- What is ordinary for each value is ordinary for a list of them. -/
theorem ordinary_mapM {k : Value → HeapM Value} (hk : ∀ v, Ordinary host (k v))
    (vs : List Value) : Ordinary host (vs.mapM k) := by
  induction vs with
  | nil =>
    rw [List.mapM_nil]
    exact ordinary_pure _
  | cons v vs ih =>
    rw [List.mapM_cons]
    exact (hk v).bind fun _ => ih.bind fun _ => ordinary_pure _

theorem ordinary_traverse {k : Value → HeapM Value} (hk : ∀ v, Ordinary host (k v))
    (fields : FieldMap Value) : Ordinary host (fields.traverse k) := by
  have hentries (entries : List (String × Value)) :
      Ordinary host (FieldMap.traverseEntries k entries) := by
    induction entries with
    | nil => exact ordinary_pure _
    | cons p entries ih => exact (hk p.2).bind fun _ => ih.bind fun _ => ordinary_pure _
  exact (hentries _).bind fun _ => ordinary_pure _

/-- Copying has no faults at all, at any depth. -/
theorem ordinary_copyUpTo (depth : Nat) (path : List Container) (v : Value) :
    Ordinary host (v.copyUpTo depth path) := by
  have hwith {array : ArrayRef → HeapM Value} {map : MapRef → HeapM Value}
      (harray : ∀ ref, Ordinary host (array ref)) (hmap : ∀ ref, Ordinary host (map ref))
      (v : Value) : Ordinary host (v.copyWith array map) := by
    induction v with
    | array ref => exact harray ref
    | map ref => exact hmap ref
    | error payload ih => exact ih.bind fun _ => ordinary_pure _
    | _ => exact ordinary_pure _
  induction depth generalizing path v with
  | zero => exact hwith (fun _ => ordinary_modifyGet _) (fun _ => ordinary_modifyGet _) v
  | succ depth ih =>
    refine hwith (fun ref => ?_) (fun ref => ?_) v
    · split
      · exact ordinary_modifyGet _
      · exact ordinary_get.bind fun _ => (ordinary_mapM (fun v => ih _ v) _).bind fun _ =>
          ordinary_modifyGet _
    · split
      · exact ordinary_modifyGet _
      · exact ordinary_get.bind fun _ => (ordinary_traverse (fun v => ih _ v) _).bind fun _ =>
          ordinary_modifyGet _

/-- The core builtins complain about their arguments and about nothing else. -/
theorem ordinary_coreCall (b : CoreBuiltin) (args : List Value) : Ordinary host (b.call args) := by
  have hone : Ordinary host (ofExcept (CoreBuiltin.onlyArgument args)) := by
    refine ordinary_ofExcept fun e he => ?_
    unfold CoreBuiltin.onlyArgument at he
    split at he <;> cases he
    exact False.elim
  cases b with
  | append =>
    show Ordinary host (CoreBuiltin.appendTo args)
    unfold CoreBuiltin.appendTo
    split
    · exact ordinary_throw False.elim
    · exact ordinary_modifyGet _
    · exact ordinary_get.bind fun _ => ordinary_modifyGet _
    · exact ordinary_throw False.elim
  | len =>
    refine hone.bind fun v => ordinary_get.bind fun h => (ordinary_ofExcept fun e he => ?_).bind
      fun _ => ordinary_pure _
    unfold CoreBuiltin.lengthOf at he
    split at he <;> cases he
    exact False.elim
  | copy => exact hone.bind fun v => ordinary_get.bind fun _ => ordinary_copyUpTo _ _ v
  | string => exact hone.bind fun _ => ordinary_get.bind fun _ => ordinary_pure _
  | int | typeName | isError => exact hone.bind fun _ => ordinary_pure _

/-- A fault of the machine that a builtin answers with is an answer of the host, and excused as
such. -/
theorem ordinary_call (b : Builtin) (args : List Value) : Ordinary host (b.call host args) := by
  cases b with
  | core b => exact ordinary_coreCall b args
  | host f => exact fun h e h' he _ => ⟨f, args, h, h', he⟩

end HeapM
end ScriptVM
