import Mathlib.Data.List.ProdSigma
import ScriptVM.Proofs.Renaming
import ScriptVM.Value.Display
import ScriptVM.Value.Equality

/-!
# Walks through containers

Display, equality and copying walk through containers and remember the way they came. Each step
leaves fewer containers to visit, and the number of steps allowed is never less than that number, so
it is never felt. Walks through related heaps then go the same way, whatever the heaps hold besides.
-/

namespace ScriptVM

/-! ## What is left to visit

A walk that has a container on its path does not go into it again. So with each step the number of
containers that may still be visited goes down by one at least.
-/

section Unvisited

variable {κ : Type} [DecidableEq κ]

/-- How many of some things are not on a path yet. -/
def unvisited (all path : List κ) : Nat := (all.filter (· ∉ path)).length

theorem unvisited_le (all path : List κ) : unvisited all path ≤ all.length :=
  List.length_filter_le ..

/-- What has been met now counted before. -/
theorem unvisited_cons_lt {all path : List κ} {x : κ} (hx : x ∈ all) (hn : x ∉ path) :
    unvisited all (x :: path) < unvisited all path := by
  have hcons : all.filter (· ∉ x :: path) = (all.filter (· ∉ path)).filter (· ≠ x) := by
    rw [List.filter_filter]
    refine List.filter_congr fun y _ => ?_
    simp [not_or]
  rw [unvisited, hcons, unvisited, List.length_filter_lt_length_iff_exists]
  exact ⟨x, by simp [hx, hn], by simp⟩

/-- If nothing is left to visit, whatever is met is on the path. -/
theorem mem_of_unvisited_le_zero {all path : List κ} {x : κ} (hx : x ∈ all)
    (hn : unvisited all path ≤ 0) : x ∈ path := by
  by_contra hnew
  have := unvisited_cons_lt hx hnew
  omega

variable {κ' : Type} [DecidableEq κ'] {all path : List κ} {all' path' : List κ'} {x : κ} {y : κ'}
  {n n' : Nat} {R : κ → κ' → Prop}

/-- Two walks that have come the same way so far find the same on their ways: both have met what
they come to, or both go on, with steps to spare. -/
theorem met_or_goesOn (hR : Relator.BiUnique R) (hxy : R x y) (hmem : x ∈ all ∧ y ∈ all')
    (hpath : List.Forall₂ R path path') (hn : unvisited all path ≤ n)
    (hn' : unvisited all' path' ≤ n') :
    (x ∈ path ∧ y ∈ path') ∨
      (x ∉ path ∧ y ∉ path' ∧ n - 1 < n ∧ List.Forall₂ R (x :: path) (y :: path') ∧
        unvisited all (x :: path) ≤ n - 1 ∧ unvisited all' (y :: path') ≤ n' - 1) := by
  have hin := List.rel_mem hR hxy hpath
  by_cases hx : x ∈ path
  · exact .inl ⟨hx, hin.1 hx⟩
  · have hy : y ∉ path' := fun hy => hx (hin.2 hy)
    have hlt := unvisited_cons_lt hmem.1 hx
    have hlt' := unvisited_cons_lt hmem.2 hy
    exact .inr ⟨hx, hy, by omega, .cons hxy hpath, by omega, by omega⟩

end Unvisited

def Heap.inventory (h : Heap) : List Container :=
  (List.range h.arrays.size).map (fun i => .array ⟨i⟩) ++
    (List.range h.maps.size).map fun i => .map ⟨i⟩

/-- The depth that walks are begun with is the length of the inventory. -/
theorem Heap.length_inventory (h : Heap) : h.inventory.length = h.containers := by
  simp [inventory, containers]

theorem Heap.array_mem_inventory {h : Heap} {ref : ArrayRef} :
    .array ref ∈ h.inventory ↔ ref.index < h.arrays.size := by
  cases ref
  simp [inventory]

theorem Heap.map_mem_inventory {h : Heap} {ref : MapRef} :
    .map ref ∈ h.inventory ↔ ref.index < h.maps.size := by
  cases ref
  simp [inventory]

def Heap.pairs (h : Heap) : List (Container × Container) := h.inventory.product h.inventory

/-- Comparisons are begun with as many steps as there are pairs. -/
theorem Heap.length_pairs (h : Heap) : h.pairs.length = h.containers * h.containers := by
  rw [← length_inventory]
  exact List.length_product _ _

/-! ## Related paths

Two walks have come the same way if their paths are related container by container. Since no object
stands for two, the one walk meets a container again just when the other does.
-/

inductive Container.Related (ρ : Renaming) : Container → Container → Prop where
  | array {a b : ArrayRef} (h : ρ.rel .array a.index b.index) : Related ρ (.array a) (.array b)
  | map {a b : MapRef} (h : ρ.rel .map a.index b.index) : Related ρ (.map a) (.map b)

def Container.BothRelated (ρ : Renaming) (p q : Container × Container) : Prop :=
  p.1.Related ρ q.1 ∧ p.2.Related ρ q.2

variable {ρ : Renaming} {h h' : Heap}

theorem ArrayRef.eq_iff {a b a' b' : ArrayRef} (ha : ρ.rel .array a.index a'.index)
    (hb : ρ.rel .array b.index b'.index) : a = b ↔ a' = b' := by
  have := ρ.unique ha hb
  cases a; cases b; cases a'; cases b'
  simpa using this

theorem MapRef.eq_iff {a b a' b' : MapRef} (ha : ρ.rel .map a.index a'.index)
    (hb : ρ.rel .map b.index b'.index) : a = b ↔ a' = b' := by
  have := ρ.unique ha hb
  cases a; cases b; cases a'; cases b'
  simpa using this

/-- A renaming is one to one. -/
theorem Container.Related.eq_iff {c d c' d' : Container} (hc : c.Related ρ c')
    (hd : d.Related ρ d') : c = d ↔ c' = d' := by
  cases hc with
  | array hc =>
    cases hd with
    | array hd => simpa using ArrayRef.eq_iff hc hd
    | map hd => simp
  | map hc =>
    cases hd with
    | array hd => simp
    | map hd => simpa using MapRef.eq_iff hc hd

/-- Both directions of being one to one at once. -/
theorem Container.biUnique_related : Relator.BiUnique (Container.Related ρ) :=
  ⟨fun _ _ _ h h' => (h.eq_iff h').2 rfl, fun _ _ _ h h' => (h.eq_iff h').1 rfl⟩

theorem Container.biUnique_bothRelated : Relator.BiUnique (Container.BothRelated ρ) := by
  constructor
  · rintro ⟨a, b⟩ ⟨c, d⟩ ⟨a', b'⟩ h h'
    exact Prod.ext ((h.1.eq_iff h'.1).2 rfl) ((h.2.eq_iff h'.2).2 rfl)
  · rintro ⟨a, b⟩ ⟨c, d⟩ ⟨a', b'⟩ h h'
    exact Prod.ext ((h.1.eq_iff h'.1).1 rfl) ((h.2.eq_iff h'.2).1 rfl)

/-- What is paired is on its heap. -/
theorem Container.Related.mem_inventory {c c' : Container} (hc : c.Related ρ c')
    (hr : Heap.Related ρ h h') : c ∈ h.inventory ∧ c' ∈ h'.inventory := by
  cases hc with
  | array hc =>
    exact ⟨Heap.array_mem_inventory.2 (hr.bounds hc).1, Heap.array_mem_inventory.2 (hr.bounds hc).2⟩
  | map hc =>
    exact ⟨Heap.map_mem_inventory.2 (hr.bounds hc).1, Heap.map_mem_inventory.2 (hr.bounds hc).2⟩

theorem Container.BothRelated.mem_pairs {p q : Container × Container}
    (hp : Container.BothRelated ρ p q) (hr : Heap.Related ρ h h') : p ∈ h.pairs ∧ q ∈ h'.pairs := by
  have h₁ := hp.1.mem_inventory hr
  have h₂ := hp.2.mem_inventory hr
  exact ⟨List.mem_product.2 ⟨h₁.1, h₂.1⟩, List.mem_product.2 ⟨h₁.2, h₂.2⟩⟩

theorem map_eq_of_forall₂ {α β γ : Type} {f : α → γ} {g : β → γ} {as : List α} {bs : List β}
    (h : List.Forall₂ (fun a b => f a = g b) as bs) : as.map f = bs.map g := by
  induction h with
  | nil => rfl
  | cons hab _ ih => rw [List.map_cons, List.map_cons, hab, ih]

/-- Each member of the first list has a counterpart. -/
theorem exists_of_forall₂ {α β : Type} {R : α → β → Prop} {as : List α} {bs : List β}
    (h : List.Forall₂ R as bs) {a : α} (ha : a ∈ as) : ∃ b, R a b := by
  induction h with
  | nil => cases ha
  | cons hab _ ih =>
    rcases List.mem_cons.1 ha with rfl | ha
    · exact ⟨_, hab⟩
    · exact ih ha

/-! ## Display -/

namespace Heap

theorem displayUpTo_eq (h : Heap) (n : Nat) (path : List Container) (v : Value) :
    h.displayUpTo n path v = v.displayWith (fun ref => h.displayUpTo n path (.array ref))
      fun ref => h.displayUpTo n path (.map ref) := by
  cases n <;> rfl

/-- A container on the way is shown empty, and any other one with what it holds. -/
theorem displayUpTo_array {n : Nat} {path : List Container} {ref : ArrayRef}
    (hmem : .array ref ∈ h.inventory) (hn : unvisited h.inventory path ≤ n) :
    h.displayUpTo n path (.array ref) =
      if .array ref ∈ path then arrayForm []
      else arrayForm
        ((h.arrayAt ref).toList.map (h.displayUpTo (n - 1) (.array ref :: path))) := by
  cases n with
  | succ n => rfl
  | zero =>
    rw [if_pos (mem_of_unvisited_le_zero hmem hn)]
    rfl

theorem displayUpTo_map {n : Nat} {path : List Container} {ref : MapRef}
    (hmem : .map ref ∈ h.inventory) (hn : unvisited h.inventory path ≤ n) :
    h.displayUpTo n path (.map ref) =
      if .map ref ∈ path then mapForm []
      else mapForm ((h.mapAt ref).entries.map fun (k, v) =>
        (k, h.displayUpTo (n - 1) (.map ref :: path) v)) := by
  cases n with
  | succ n => rfl
  | zero =>
    rw [if_pos (mem_of_unvisited_le_zero hmem hn)]
    rfl

end Heap

/-- Only references are shown by what the heap holds. -/
theorem Value.displayWith_related {array array' : ArrayRef → String} {map map' : MapRef → String}
    (ha : ∀ {a b : ArrayRef}, ρ.rel .array a.index b.index → array a = array' b)
    (hm : ∀ {a b : MapRef}, ρ.rel .map a.index b.index → map a = map' b) {v v' : Value}
    (hv : v.Related ρ v') : v.displayWith array map = v'.displayWith array' map' := by
  induction hv with
  | array hrel => exact ha hrel
  | map hrel => exact hm hrel
  | error _ ih => exact congrArg ("error: " ++ ·) ih
  | undefined => exact Eq.refl "<undefined>"
  | bool b =>
    cases b
    · exact Eq.refl "false"
    · exact Eq.refl "true"
  | int n => exact Eq.refl (SignedDecimal.text n)
  | float x => exact Eq.refl x.text
  | string s => exact Eq.refl (Text.quoted s)
  | function _ _ => exact Eq.refl "<compiled-function>"
  | builtin b => exact Eq.refl ("<builtin-function:" ++ b.name ++ ">")

namespace Heap

/-- The depths may differ on the two heaps, as long as each suffices. -/
theorem displayUpTo_related (hr : Related ρ h h') {n n' : Nat} {path path' : List Container}
    (hpath : List.Forall₂ (Container.Related ρ) path path')
    (hn : unvisited h.inventory path ≤ n) (hn' : unvisited h'.inventory path' ≤ n')
    {v v' : Value} (hv : v.Related ρ v') :
    h.displayUpTo n path v = h'.displayUpTo n' path' v' := by
  induction n using Nat.strongRecOn generalizing n' path path' v v' with
  | ind n ih =>
  rw [displayUpTo_eq, displayUpTo_eq h']
  refine Value.displayWith_related (fun {a b} hrel => ?_) (fun {a b} hrel => ?_) hv
  · have hc : (Container.array a).Related ρ (.array b) := .array hrel
    have hmem := hc.mem_inventory hr
    rw [displayUpTo_array hmem.1 hn, displayUpTo_array hmem.2 hn']
    obtain ⟨hon, hon'⟩ | ⟨hon, hon', hlt, hpath, hn, hn'⟩ :=
      met_or_goesOn Container.biUnique_related hc hmem hpath hn hn'
    · rw [if_pos hon, if_pos hon']
    · rw [if_neg hon, if_neg hon']
      refine congrArg arrayForm (map_eq_of_forall₂ ((hr.contents hrel).imp fun v v' hv => ?_))
      exact ih (n - 1) hlt hpath hn hn' hv
  · have hc : (Container.map a).Related ρ (.map b) := .map hrel
    have hmem := hc.mem_inventory hr
    rw [displayUpTo_map hmem.1 hn, displayUpTo_map hmem.2 hn']
    obtain ⟨hon, hon'⟩ | ⟨hon, hon', hlt, hpath, hn, hn'⟩ :=
      met_or_goesOn Container.biUnique_related hc hmem hpath hn hn'
    · rw [if_pos hon, if_pos hon']
    · rw [if_neg hon, if_neg hon']
      refine congrArg mapForm (map_eq_of_forall₂ ((hr.contents hrel).imp fun p q hp => ?_))
      exact Prod.ext hp.1 (ih (n - 1) hlt hpath hn hn' hp.2)

/-- How a value is shown does not tell how objects are numbered. -/
theorem display_related (hr : Related ρ h h') {v v' : Value} (hv : v.Related ρ v') :
    h.display v = h'.display v' := by
  refine displayUpTo_related hr .nil ?_ ?_ hv
  · exact h.length_inventory ▸ unvisited_le ..
  · exact h'.length_inventory ▸ unvisited_le ..

theorem textOf_related (hr : Related ρ h h') {v v' : Value} (hv : v.Related ρ v') :
    h.textOf v = h'.textOf v' := by
  cases hv with
  | string s => rfl
  | undefined => exact display_related hr .undefined
  | bool b => exact display_related hr (.bool b)
  | int n => exact display_related hr (.int n)
  | float x => exact display_related hr (.float x)
  | array hrel => exact display_related hr (.array hrel)
  | map hrel => exact display_related hr (.map hrel)
  | error hv => exact display_related hr (.error hv)
  | function hid hf => exact display_related hr (.function hid hf)
  | builtin b => exact display_related hr (.builtin b)

end Heap

/-! ## Equality -/

namespace Heap

theorem equalUpTo_eq (h : Heap) (n : Nat) (path : List (Container × Container)) (v w : Value) :
    h.equalUpTo n path v w = v.equalWith (fun a b => h.equalUpTo n path (.array a) (.array b))
      (fun a b => h.equalUpTo n path (.map a) (.map b)) w := by
  cases n <;> rfl

/-- Different arrays that are not being compared already are compared element by element. -/
theorem equalUpTo_array {n : Nat} {path : List (Container × Container)} {a b : ArrayRef}
    (hmem : (.array a, .array b) ∈ h.pairs) (hn : unvisited h.pairs path ≤ n) :
    h.equalUpTo n path (.array a) (.array b) =
      (decide (a = b) || !decide ((.array a, .array b) ∈ path) &&
        Array.isEqv (h.arrayAt a) (h.arrayAt b)
          (h.equalUpTo (n - 1) ((.array a, .array b) :: path))) := by
  cases n with
  | succ n => rfl
  | zero =>
    have hin := mem_of_unvisited_le_zero hmem hn
    simp only [hin, decide_true, Bool.not_true, Bool.false_and, Bool.or_false]
    rfl

theorem equalUpTo_map {n : Nat} {path : List (Container × Container)} {a b : MapRef}
    (hmem : (.map a, .map b) ∈ h.pairs) (hn : unvisited h.pairs path ≤ n) :
    h.equalUpTo n path (.map a) (.map b) =
      (decide (a = b) || !decide ((.map a, .map b) ∈ path) &&
        fieldsEqual (h.equalUpTo (n - 1) ((.map a, .map b) :: path)) (h.mapAt a)
          (h.mapAt b)) := by
  cases n with
  | succ n => rfl
  | zero =>
    have hin := mem_of_unvisited_le_zero hmem hn
    simp only [hin, decide_true, Bool.not_true, Bool.false_and, Bool.or_false]
    rfl

end Heap

theorem isEqv_of_forall₂ {α β : Type} {R : α → β → Prop} {f : α → α → Bool} {g : β → β → Bool}
    (hfg : ∀ a a' b b', R a a' → R b b' → f a b = g a' b') {as bs : List α} {as' bs' : List β}
    (ha : List.Forall₂ R as as') (hb : List.Forall₂ R bs bs') :
    List.isEqv as bs f = List.isEqv as' bs' g := by
  induction ha generalizing bs bs' with
  | nil => cases hb <;> rfl
  | cons hrel _ ih =>
    cases hb with
    | nil => rfl
    | cons hrel' hb => rw [List.isEqv, List.isEqv, hfg _ _ _ _ hrel hrel', ih hb]

/-- Only references are compared in terms of the heap. -/
theorem Value.equalWith_related {arrays arrays' : ArrayRef → ArrayRef → Bool}
    {maps maps' : MapRef → MapRef → Bool}
    (ha : ∀ {a a' b b' : ArrayRef}, ρ.rel .array a.index a'.index →
      ρ.rel .array b.index b'.index → arrays a b = arrays' a' b')
    (hm : ∀ {a a' b b' : MapRef}, ρ.rel .map a.index a'.index →
      ρ.rel .map b.index b'.index → maps a b = maps' a' b')
    {v v' w w' : Value} (hv : v.Related ρ v') (hw : w.Related ρ w') :
    v.equalWith arrays maps w = v'.equalWith arrays' maps' w' := by
  induction hv generalizing w w' with
  | array hrel =>
    cases hw with
    | array hrel' => exact ha hrel hrel'
    | _ => rfl
  | map hrel =>
    cases hw with
    | map hrel' => exact hm hrel hrel'
    | _ => rfl
  | error _ ih =>
    cases hw with
    | error hw => exact ih hw
    | _ => rfl
  | function hid _ =>
    cases hw with
    | function hid' _ =>
      have := ρ.unique hid hid'
      simp only [equalWith, FunctionObject.same]
      rw [Bool.eq_iff_iff]
      simpa using this
    | _ => rfl
  | _ => cases hw <;> rfl

namespace Heap

/-- Pairs are compared on both sides, or are on the path on both. -/
theorem equalUpTo_related (hr : Related ρ h h') {n n' : Nat}
    {path path' : List (Container × Container)}
    (hpath : List.Forall₂ (Container.BothRelated ρ) path path')
    (hn : unvisited h.pairs path ≤ n) (hn' : unvisited h'.pairs path' ≤ n')
    {v v' w w' : Value} (hv : v.Related ρ v') (hw : w.Related ρ w') :
    h.equalUpTo n path v w = h'.equalUpTo n' path' v' w' := by
  induction n using Nat.strongRecOn generalizing n' path path' v v' w w' with
  | ind n ih =>
  rw [equalUpTo_eq, equalUpTo_eq h']
  refine Value.equalWith_related (fun {a a' b b'} hra hrb => ?_) (fun {a a' b b'} hra hrb => ?_)
    hv hw
  · have hc : Container.BothRelated ρ (.array a, .array b) (.array a', .array b') :=
      ⟨.array hra, .array hrb⟩
    have hmem := hc.mem_pairs hr
    have hsame : decide (a = b) = decide (a' = b') := decide_eq_decide.2 (ArrayRef.eq_iff hra hrb)
    rw [equalUpTo_array hmem.1 hn, equalUpTo_array hmem.2 hn', hsame]
    obtain ⟨hon, hon'⟩ | ⟨hon, hon', hlt, hpath, hn, hn'⟩ :=
      met_or_goesOn Container.biUnique_bothRelated hc hmem hpath hn hn'
    · simp only [hon, hon', decide_true, Bool.not_true, Bool.false_and]
    · have hstep (v v' w w' : Value) (hv : v.Related ρ v') (hw : w.Related ρ w') :=
        ih (n - 1) hlt hpath hn hn' hv hw
      rw [← Array.isEqv_toList, ← Array.isEqv_toList,
        isEqv_of_forall₂ hstep (hr.contents hra) (hr.contents hrb)]
      simp only [hon, hon']
  · have hc : Container.BothRelated ρ (.map a, .map b) (.map a', .map b') :=
      ⟨.map hra, .map hrb⟩
    have hmem := hc.mem_pairs hr
    have hsame : decide (a = b) = decide (a' = b') := decide_eq_decide.2 (MapRef.eq_iff hra hrb)
    rw [equalUpTo_map hmem.1 hn, equalUpTo_map hmem.2 hn', hsame]
    obtain ⟨hon, hon'⟩ | ⟨hon, hon', hlt, hpath, hn, hn'⟩ :=
      met_or_goesOn Container.biUnique_bothRelated hc hmem hpath hn hn'
    · simp only [hon, hon', decide_true, Bool.not_true, Bool.false_and]
    · have hstep (p p' q q' : String × Value) (hp : p.1 = p'.1 ∧ p.2.Related ρ p'.2)
          (hq : q.1 = q'.1 ∧ q.2.Related ρ q'.2) :
          (p.1 == q.1 && h.equalUpTo (n - 1) ((.map a, .map b) :: path) p.2 q.2) =
            (p'.1 == q'.1 && h'.equalUpTo (n' - 1) ((.map a', .map b') :: path') p'.2 q'.2) := by
        rw [hp.1, hq.1, ih (n - 1) hlt hpath hn hn' hp.2 hq.2]
      unfold fieldsEqual
      rw [isEqv_of_forall₂ hstep (hr.contents hra) (hr.contents hrb)]
      simp only [hon, hon']

/-- Equality of values is not a matter of numbering either. -/
theorem equal_related (hr : Related ρ h h') {v v' w w' : Value} (hv : v.Related ρ v')
    (hw : w.Related ρ w') : h.equal v w = h'.equal v' w' := by
  refine equalUpTo_related hr .nil ?_ ?_ hv hw
  · exact h.length_pairs ▸ unvisited_le ..
  · exact h'.length_pairs ▸ unvisited_le ..

end Heap
end ScriptVM
