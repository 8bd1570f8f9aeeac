import ScriptVM.Proofs.Region
import ScriptVM.Proofs.Renaming

/-!
# What a deep copy adds to a heap

A deep copy only adds to the heap, and what it adds refers to nothing that was there before, save
for functions, which are not copied. If these have captured nothing, the copy and the value that it
was made of have no object in common.
-/

namespace ScriptVM

/-! ## Objects that have been added -/

/-- The objects that have been added to `h₀` since, and all identities, each for itself. -/
def Renaming.since (h₀ h : Heap) : Renaming where
  rel k a b := a = b ∧ a < h.count k ∧ (k = .identity ∨ h₀.count k ≤ a)
  unique := by
    rintro k a b a' b' ⟨rfl, -⟩ ⟨rfl, -⟩
    exact Iff.rfl

/-- What has been added stays added. -/
theorem Renaming.since_le {h₀ h h₁ : Heap} (hle : ∀ k, h.count k ≤ h₁.count k) :
    since h₀ h ≤ since h₀ h₁ := fun k _ _ ⟨heq, hlt, hnew⟩ =>
  ⟨heq, Nat.lt_of_lt_of_le hlt (hle k), hnew⟩

/-- Objects have been added to `h₀`. What was there is as it was, and what has been added refers to
added objects only. -/
structure Heap.Extended (h₀ h : Heap) : Prop where
  le : ∀ k, h₀.count k ≤ h.count k
  same : ∀ k i, i < h₀.count k → h₀.Same h k i
  added : Heap.Related (.since h₀ h) h h

namespace Heap.Extended

variable {h₀ h h₁ : Heap} {k : Kind}

protected theorem refl (h : Heap) : h.Extended h where
  le _ := Nat.le_refl _
  same _ _ _ := .refl ..
  added := by
    refine ⟨fun {k a b} hrel => ?_, fun {k a b} hrel => ?_⟩
    · obtain ⟨rfl, hlt, -⟩ := hrel
      exact ⟨hlt, hlt⟩
    · obtain ⟨rfl, hlt, rfl | hle⟩ := hrel
      · trivial
      · exact absurd hlt (Nat.not_lt_of_le hle)

/-- One more object, that refers to added ones. -/
theorem add (he : h₀.Extended h) (hadd : Adds k h h₁)
    (hm : Matches (.since h₀ h₁) h₁ h₁ k (h.count k) (h.count k)) : h₀.Extended h₁ where
  le k' := Nat.le_trans (he.le k') (hadd.le k')
  same k' i hi := (he.same k' i hi).trans (hadd.same k' i (Nat.lt_of_lt_of_le hi (he.le k')))
  added := by
    refine ⟨fun {k' a b} hrel => ?_, fun {k' a b} hrel => ?_⟩
    · obtain ⟨rfl, hlt, -⟩ := hrel
      exact ⟨hlt, hlt⟩
    · obtain ⟨rfl, hlt, hnew⟩ := hrel
      rcases Nat.lt_or_ge a (h.count k') with hold | hge
      · have hsame := hadd.same k' a hold
        exact ((he.added.contents ⟨rfl, hold, hnew⟩).mono (Renaming.since_le hadd.le)).of_same
          hsame hsame
      · rw [hadd.count] at hlt
        by_cases hk : k' = k
        · subst hk
          rw [if_pos rfl] at hlt
          obtain rfl : a = h.count k' := Nat.le_antisymm (Nat.le_of_lt_succ hlt) hge
          exact hm
        · rw [if_neg hk] at hlt
          exact absurd hlt (Nat.not_lt_of_le hge)

end Heap.Extended

abbrev Function.CellFree (f : Function) : Prop := f.cells = []

/-! ## Computations that add to a heap -/

namespace HeapM

variable {α β : Type} {h₀ : Heap} {ρ : Renaming}

/-- Begun in a heap that has been added to, the computation has an answer, and it has done nothing
but add to the heap. -/
def OnlyAdds (h₀ : Heap) (ρ : Renaming) (x : HeapM α) (Q : Renaming → α → Prop) : Prop :=
  ∀ h, h₀.Extended h → ρ ≤ .since h₀ h →
    ∃ a h₁, x h = .ok a h₁ ∧ (∀ k, h.count k ≤ h₁.count k) ∧ h₀.Extended h₁ ∧ Q (.since h₀ h₁) a

/-- The value refers to objects of the renaming only. -/
abbrev Own (ρ : Renaming) (v : Value) : Prop := v.Related ρ v

variable {x : HeapM α} {k : α → HeapM β} {Q : Renaming → α → Prop} {R : Renaming → β → Prop}

/-- The second part may hold on to what the first one has added. -/
theorem OnlyAdds.bind (hx : OnlyAdds h₀ ρ x Q)
    (hk : ∀ ρ₁ a, ρ ≤ ρ₁ → Q ρ₁ a → OnlyAdds h₀ ρ₁ (k a) R) : OnlyAdds h₀ ρ (x >>= k) R := by
  intro h he hle
  obtain ⟨a, h₁, hxh, hcount, he₁, hq⟩ := hx h he hle
  have hle₁ : ρ ≤ .since h₀ h₁ := hle.trans (Renaming.since_le hcount)
  obtain ⟨b, h₂, hkh, hcount₁, he₂, hr⟩ := hk _ a hle₁ hq h₁ he₁ (le_refl _)
  refine ⟨b, h₂, ?_, fun k => Nat.le_trans (hcount k) (hcount₁ k), he₂, hr⟩
  simp only [Bind.bind, EStateM.bind, hxh, hkh]

theorem onlyAdds_pure {a : α} (ha : ∀ ρ₁, ρ ≤ ρ₁ → Q ρ₁ a) : OnlyAdds h₀ ρ (pure a) Q :=
  fun h he hle => ⟨a, h, rfl, fun _ => Nat.le_refl _, he, ha _ hle⟩

theorem onlyAdds_get : OnlyAdds h₀ ρ get fun _ h => h₀.Extended h :=
  fun h he _ => ⟨h, h, rfl, fun _ => Nat.le_refl _, he, he⟩

/-- A new array refers to what its items refer to. -/
theorem onlyAdds_newArray {items : List Value} (hi : ∀ v ∈ items, Own ρ v) :
    OnlyAdds h₀ ρ (newArray items.toArray) Own := by
  intro h he hle
  have hadd := Heap.adds_addArray h items.toArray
  have hrel : (Renaming.since h₀ (h.addArray items.toArray).2).rel .array (h.count .array)
      (h.count .array) := ⟨rfl, hadd.lt, .inr (he.le .array)⟩
  refine ⟨.array ⟨h.arrays.size⟩, (h.addArray items.toArray).2, rfl, hadd.le, he.add hadd ?_,
    .array hrel⟩
  simp only [Heap.Matches, Heap.arrayAt_addArray, Heap.count, if_true]
  exact List.forall₂_same.2 fun v hv => (hi v hv).mono (hle.trans (Renaming.since_le hadd.le))

theorem onlyAdds_newMap {fields : FieldMap Value} (hi : ∀ p ∈ fields.entries, Own ρ p.2) :
    OnlyAdds h₀ ρ (newMap fields) Own := by
  intro h he hle
  have hadd := Heap.adds_addMap h fields
  have hrel : (Renaming.since h₀ (h.addMap fields).2).rel .map (h.count .map) (h.count .map) :=
    ⟨rfl, hadd.lt, .inr (he.le .map)⟩
  refine ⟨.map ⟨h.maps.size⟩, (h.addMap fields).2, rfl, hadd.le, he.add hadd ?_, .map hrel⟩
  simp only [Heap.Matches, Heap.mapAt_addMap, Heap.count, if_true]
  exact List.forall₂_same.2 fun p hp =>
    ⟨rfl, (hi p hp).mono (hle.trans (Renaming.since_le hadd.le))⟩

theorem onlyAdds_mapM {k : Value → HeapM Value} {vs : List Value}
    (hk : ∀ v ∈ vs, ∀ ρ, OnlyAdds h₀ ρ (k v) Own) :
    OnlyAdds h₀ ρ (vs.mapM k) fun ρ ws => ∀ w ∈ ws, Own ρ w := by
  induction vs generalizing ρ with
  | nil =>
    rw [List.mapM_nil]
    exact onlyAdds_pure fun _ _ => by simp
  | cons v vs ih =>
    rw [List.mapM_cons]
    refine (hk v (.head _) ρ).bind fun ρ₁ w _ hw => ?_
    refine (ih fun u hu => hk u (.tail _ hu)).bind fun ρ₂ ws hle hws => onlyAdds_pure ?_
    intro ρ₃ hle₁ u hu
    rcases List.mem_cons.1 hu with rfl | hu
    · exact hw.mono (hle.trans hle₁)
    · exact (hws u hu).mono hle₁

theorem onlyAdds_traverse {k : Value → HeapM Value} {fields : FieldMap Value}
    (hk : ∀ p ∈ fields.entries, ∀ ρ, OnlyAdds h₀ ρ (k p.2) Own) :
    OnlyAdds h₀ ρ (fields.traverse k) fun ρ new => ∀ p ∈ new.entries, Own ρ p.2 := by
  have hentries : ∀ (entries : List (String × Value)) (ρ : Renaming),
      (∀ p ∈ entries, ∀ ρ, OnlyAdds h₀ ρ (k p.2) Own) →
      OnlyAdds h₀ ρ (FieldMap.traverseEntries k entries) fun ρ r => ∀ p ∈ r.1, Own ρ p.2 := by
    intro entries
    induction entries with
    | nil => exact fun _ _ => onlyAdds_pure fun _ _ => by simp
    | cons p entries ih =>
      intro ρ hp
      refine (hp p (.head _) ρ).bind fun ρ₁ w _ hw => ?_
      refine (ih ρ₁ fun q hq => hp q (.tail _ hq)).bind fun ρ₂ r hle hr => onlyAdds_pure ?_
      intro ρ₃ hle₁ q hq
      rcases List.mem_cons.1 hq with rfl | hq
      · exact hw.mono (hle.trans hle₁)
      · exact (hr q hq).mono hle₁
  refine (hentries fields.entries ρ hk).bind fun ρ₁ r _ hr => onlyAdds_pure ?_
  exact fun ρ₂ hle p hp => (hr p hp).mono hle

/-! ## Copies -/

/-- A function is not copied, and has to have captured nothing for the copy to refer to nothing
old. -/
theorem onlyAdds_copyWith {array : ArrayRef → HeapM Value} {map : MapRef → HeapM Value} {v : Value}
    (hv : v.Related (.same h₀) v) (hfree : h₀.Only Function.CellFree v)
    (ha : ∀ ref, ref.index < h₀.count .array → h₀.Only Function.CellFree (.array ref) →
      ∀ ρ, OnlyAdds h₀ ρ (array ref) Own)
    (hm : ∀ ref, ref.index < h₀.count .map → h₀.Only Function.CellFree (.map ref) →
      ∀ ρ, OnlyAdds h₀ ρ (map ref) Own) : OnlyAdds h₀ ρ (v.copyWith array map) Own := by
  induction v generalizing ρ with
  | array ref =>
    cases hv with
    | array hrel => exact ha ref hrel.2 hfree ρ
  | map ref =>
    cases hv with
    | map hrel => exact hm ref hrel.2 hfree ρ
  | error payload ih =>
    cases hv with
    | error hv =>
      refine (ih hv fun g hg => hfree g (.payload hg)).bind fun ρ₁ w _ hw => onlyAdds_pure ?_
      exact fun ρ₂ hle => .error (hw.mono hle)
  | function f =>
    cases hv with
    | function hid _ =>
      have hcells : f.function.cells = [] := hfree f (.refl _)
      intro h he _
      have hid : f.id < h.count .identity := Nat.lt_of_lt_of_le hid.2 (he.le .identity)
      refine ⟨.function f, h, rfl, fun _ => Nat.le_refl _, he, ?_⟩
      exact .function ⟨rfl, hid, .inl rfl⟩ ⟨rfl, by rw [hcells]; exact .nil⟩
  | undefined => exact onlyAdds_pure fun _ _ => .undefined
  | bool b => exact onlyAdds_pure fun _ _ => .bool b
  | int n => exact onlyAdds_pure fun _ _ => .int n
  | float x => exact onlyAdds_pure fun _ _ => .float x
  | string s => exact onlyAdds_pure fun _ _ => .string s
  | builtin b => exact onlyAdds_pure fun _ _ => .builtin b

variable (hh : Heap.Related (.same h₀) h₀ h₀)
include hh

/-- However deep it goes, a copy is made of added objects only. -/
theorem onlyAdds_copyUpTo (depth : Nat) (path : List Container) {v : Value}
    (hv : v.Related (.same h₀) v) (hfree : h₀.Only Function.CellFree v) :
    OnlyAdds h₀ ρ (v.copyUpTo depth path) Own := by
  have hnone (ρ : Renaming) : ∀ v ∈ ([] : List Value), Own ρ v := by simp
  have harray (ρ : Renaming) : OnlyAdds h₀ ρ (newArray #[]) Own := onlyAdds_newArray (hnone ρ)
  have hmap (ρ : Renaming) : OnlyAdds h₀ ρ (newMap FieldMap.empty) Own :=
    onlyAdds_newMap (by simp [FieldMap.empty])
  induction depth generalizing v path ρ with
  | zero => exact onlyAdds_copyWith hv hfree (fun _ _ _ => harray) fun _ _ _ => hmap
  | succ depth ih =>
    refine onlyAdds_copyWith hv hfree (fun ref hlt hfree ρ => ?_) fun ref hlt hfree ρ => ?_
    · split
      · exact harray ρ
      · refine onlyAdds_get.bind fun ρ₁ h _ he => ?_
        -- Copies that were made before have only added to the heap.
        have hsame : h.arrayAt ref = h₀.arrayAt ref := he.same .array ref.index hlt
        rw [hsame]
        have hitems : ∀ v ∈ (h₀.arrayAt ref).toList, v.Related (.same h₀) v :=
          List.forall₂_same.1 (hh.contents (k := .array) ⟨rfl, hlt⟩)
        refine (onlyAdds_mapM fun v hv ρ => ?_).bind fun ρ₂ items _ hi => onlyAdds_newArray hi
        exact ih _ (hitems v hv) fun g hg => hfree g (.element (Array.mem_toList_iff.1 hv) hg)
    · split
      · exact hmap ρ
      · refine onlyAdds_get.bind fun ρ₁ h _ he => ?_
        have hsame : h.mapAt ref = h₀.mapAt ref := he.same .map ref.index hlt
        rw [hsame]
        have hfields : ∀ p ∈ (h₀.mapAt ref).entries, p.1 = p.1 ∧ p.2.Related (.same h₀) p.2 :=
          List.forall₂_same.1 (hh.contents (k := .map) ⟨rfl, hlt⟩)
        refine (onlyAdds_traverse fun p hp ρ => ?_).bind fun ρ₂ fields _ hi => onlyAdds_newMap hi
        exact ih _ (hfields p hp).2 fun g hg => hfree g (.field hp hg)

/-- The heap from which the copy begins is the one that it only adds to. -/
theorem onlyAdds_deepCopy {v : Value} (hv : v.Related (.same h₀) v)
    (hfree : h₀.Only Function.CellFree v) :
    OnlyAdds h₀ ρ v.deepCopy Own :=
  onlyAdds_get.bind fun _ _ _ _ => onlyAdds_copyUpTo hh _ _ hv hfree

end HeapM

end ScriptVM
