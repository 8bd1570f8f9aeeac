import Mathlib.Data.List.Forall2
import Mathlib.Order.Basic
import ScriptVM.Proofs.Heap

/-!
# Renamings

Two runs that have made different numbers of objects give different indices to objects that play the
same part. A renaming pairs the objects of one heap with those of another. Values are related by it
if they differ in the indices only, and heaps if paired objects hold related values.

A `World` is a renaming between two heaps. Worlds grow: objects are added and paired, paired objects
are written to, and what was not paired stays as it is.
-/

namespace ScriptVM

/-! ## Objects of a heap

Arrays, maps, cells and the identities of functions are numbered each by themselves. What has to be
said of additions and writes is the same for all four, so it is said of a kind.
-/

/-- The kinds of objects that a heap numbers. -/
inductive Kind where
  | array
  | map
  | cell
  | identity
  deriving DecidableEq

namespace Heap

def count (h : Heap) : Kind → Nat
  | .array => h.arrays.size
  | .map => h.maps.size
  | .cell => h.cells.size
  | .identity => h.identities

/-- An object holds in `h₁` what it holds in `h`. -/
def Same (h h₁ : Heap) (k : Kind) (i : Nat) : Prop :=
  match k with
  | .array => h₁.arrayAt ⟨i⟩ = h.arrayAt ⟨i⟩
  | .map => h₁.mapAt ⟨i⟩ = h.mapAt ⟨i⟩
  | .cell => h₁.cellAt ⟨i⟩ = h.cellAt ⟨i⟩
  | .identity => True

/-- One object of a kind is added, and the others stay. -/
structure Adds (k : Kind) (h h₁ : Heap) : Prop where
  count : ∀ k', h₁.count k' = h.count k' + if k' = k then 1 else 0
  same : ∀ k' i, i < h.count k' → h.Same h₁ k' i

/-- One object is written to, and the others stay. -/
structure Sets (k : Kind) (i : Nat) (h h₁ : Heap) : Prop where
  count : ∀ k', h₁.count k' = h.count k'
  same : ∀ k' i', k' ≠ k ∨ i' ≠ i → h.Same h₁ k' i'

variable {h h₁ h₂ : Heap} {k : Kind} {i : Nat}

theorem Same.refl (h : Heap) (k : Kind) (i : Nat) : h.Same h k i := by
  cases k <;> trivial

theorem Same.trans (h01 : h.Same h₁ k i) (h12 : h₁.Same h₂ k i) : h.Same h₂ k i := by
  cases k
  case identity => trivial
  all_goals exact Eq.trans h12 h01

/-- No kind of object gets fewer. -/
theorem Adds.le (hadd : Adds k h h₁) (k' : Kind) : h.count k' ≤ h₁.count k' := by
  rw [hadd.count]
  exact Nat.le_add_right ..

/-- The number of the new object was free. -/
theorem Adds.lt (hadd : Adds k h h₁) : h.count k < h₁.count k := by
  rw [hadd.count, if_pos rfl]
  exact Nat.lt_succ_self _

/-- The new array is the one object of its kind that is added, and no other changes. -/
theorem adds_addArray (h : Heap) (items : Array Value) : Adds .array h (h.addArray items).2 where
  count k' := by cases k' <;> simp [count, addArray]
  same k' i hi := by
    cases k'
    case array =>
      have hi : i ≠ h.arrays.size := Nat.ne_of_lt hi
      simp [Same, hi]
    all_goals first | rfl | trivial

theorem adds_addMap (h : Heap) (fields : FieldMap Value) : Adds .map h (h.addMap fields).2 where
  count k' := by cases k' <;> simp [count, addMap]
  same k' i hi := by
    cases k'
    case map =>
      have hi : i ≠ h.maps.size := Nat.ne_of_lt hi
      simp [Same, hi]
    all_goals first | rfl | trivial

theorem adds_addCell (h : Heap) (v : Value) : Adds .cell h (h.addCell v).2 where
  count k' := by cases k' <;> simp [count, addCell]
  same k' i hi := by
    cases k'
    case cell =>
      have hi : i ≠ h.cells.size := Nat.ne_of_lt hi
      simp [Same, hi]
    all_goals first | rfl | trivial

theorem adds_addIdentity (h : Heap) : Adds .identity h h.addIdentity.2 where
  count k' := by cases k' <;> simp [count, addIdentity]
  same k' i _ := by cases k' <;> first | rfl | trivial

/-- The array is the only object that holds something else afterwards, if it does. -/
theorem sets_setElement (h : Heap) (ref : ArrayRef) (index : Nat) (v : Value) :
    Sets .array ref.index h (h.setElement ref index v) where
  count k' := by cases k' <;> simp [count, setElement]
  same k' i hi := by
    cases k'
    case array =>
      have hne : (⟨i⟩ : ArrayRef) ≠ ref := fun heq => by
        cases heq
        simp at hi
      simp [Same, hne]
    all_goals first | rfl | trivial

theorem sets_setField (h : Heap) (ref : MapRef) (key : String) (v : Value) :
    Sets .map ref.index h (h.setField ref key v) where
  count k' := by cases k' <;> simp [count, setField]
  same k' i hi := by
    cases k'
    case map =>
      have hne : (⟨i⟩ : MapRef) ≠ ref := fun heq => by
        cases heq
        simp at hi
      simp [Same, hne]
    all_goals first | rfl | trivial

theorem sets_setCell (h : Heap) (ref : CellRef) (v : Value) :
    Sets .cell ref.index h (h.setCell ref v) where
  count k' := by cases k' <;> simp [count, setCell]
  same k' i hi := by
    cases k'
    case cell =>
      have hne : (⟨i⟩ : CellRef) ≠ ref := fun heq => by
        cases heq
        simp at hi
      simp [Same, hne]
    all_goals first | rfl | trivial

end Heap

/-! ## Renamings -/

/-- Pairs of objects that stand for each other, by their indices. No object stands for two. -/
structure Renaming where
  rel : Kind → Nat → Nat → Prop
  unique : ∀ {k a b a' b'}, rel k a b → rel k a' b' → (a = a' ↔ b = b')

/-- A renaming is below another that has all its pairs. -/
instance : Preorder Renaming where
  le ρ ρ' := ∀ k a b, ρ.rel k a b → ρ'.rel k a b
  le_refl _ _ _ _ := id
  le_trans _ _ _ h h' k a b hrel := h' k a b (h k a b hrel)

namespace Renaming

variable {ρ : Renaming}

/-- The renaming with one pair more, of objects that stand for none so far. -/
def pair (ρ : Renaming) (k : Kind) (a b : Nat) (ha : ∀ b', ¬ ρ.rel k a b')
    (hb : ∀ a', ¬ ρ.rel k a' b) : Renaming where
  rel k' a' b' := ρ.rel k' a' b' ∨ k' = k ∧ a' = a ∧ b' = b
  unique := by
    rintro k' a₁ b₁ a₂ b₂ (h₁ | ⟨rfl, rfl, rfl⟩) (h₂ | ⟨hk, rfl, rfl⟩)
    · exact ρ.unique h₁ h₂
    · subst hk
      constructor
      · rintro rfl
        exact absurd h₁ (ha _)
      · rintro rfl
        exact absurd h₁ (hb _)
    · constructor
      · rintro rfl
        exact absurd h₂ (ha _)
      · rintro rfl
        exact absurd h₂ (hb _)
    · simp

/-- All pairs that there were are still pairs. -/
theorem le_pair {k : Kind} {a b : Nat} {ha hb} : ρ ≤ ρ.pair k a b ha hb := fun _ _ _ => .inl

theorem rel_pair {k : Kind} {a b : Nat} {ha hb} : (ρ.pair k a b ha hb).rel k a b :=
  .inr ⟨rfl, rfl, rfl⟩

/-- Every object of a heap for itself. -/
def same (h : Heap) : Renaming where
  rel k a b := a = b ∧ a < h.count k
  unique := by
    rintro k a b a' b' ⟨rfl, -⟩ ⟨rfl, -⟩
    exact Iff.rfl

end Renaming

/-! ## Values

Relations of values refer to a renaming and to nothing else, so they go on to hold when the renaming
gets more pairs.
-/

/-- Two functions that differ in their cells only, and these are paired. -/
structure Function.Related (ρ : Renaming) (f g : Function) : Prop where
  eq : g = { f with cells := g.cells }
  cells : List.Forall₂ (fun c d => ρ.rel .cell c.index d.index) f.cells g.cells

/-- Two values that differ in the indices of paired objects only. -/
inductive Value.Related (ρ : Renaming) : Value → Value → Prop where
  | undefined : Related ρ .undefined .undefined
  | bool (b : Bool) : Related ρ (.bool b) (.bool b)
  | int (n : Int64) : Related ρ (.int n) (.int n)
  | float (x : Binary64) : Related ρ (.float x) (.float x)
  | string (s : String) : Related ρ (.string s) (.string s)
  | array {a b : ArrayRef} (h : ρ.rel .array a.index b.index) : Related ρ (.array a) (.array b)
  | map {a b : MapRef} (h : ρ.rel .map a.index b.index) : Related ρ (.map a) (.map b)
  | error {v w : Value} (h : Related ρ v w) : Related ρ (.error v) (.error w)
  | function {f g : FunctionObject} (hid : ρ.rel .identity f.id g.id)
    (hf : Function.Related ρ f.function g.function) : Related ρ (.function f) (.function g)
  | builtin (b : Builtin) : Related ρ (.builtin b) (.builtin b)

abbrev Values.Related (ρ : Renaming) (vs ws : List Value) : Prop :=
  List.Forall₂ (Value.Related ρ) vs ws

abbrev Fields.Related (ρ : Renaming) (fs gs : List (String × Value)) : Prop :=
  List.Forall₂ (fun p q => p.1 = q.1 ∧ Value.Related ρ p.2 q.2) fs gs

variable {ρ ρ' : Renaming}

theorem Function.Related.mono {f g : Function} (h : f.Related ρ g) (hle : ρ ≤ ρ') :
    f.Related ρ' g := ⟨h.eq, h.cells.imp fun _ _ hrel => hle _ _ _ hrel⟩

/-- By induction on the value. References are paired by the greater renaming too. -/
theorem Value.Related.mono {v w : Value} (h : v.Related ρ w) (hle : ρ ≤ ρ') : v.Related ρ' w := by
  induction h with
  | undefined => exact .undefined
  | bool b => exact .bool b
  | int n => exact .int n
  | float x => exact .float x
  | string s => exact .string s
  | array h => exact .array (hle _ _ _ h)
  | map h => exact .map (hle _ _ _ h)
  | error _ ih => exact .error ih
  | function hid hf => exact .function (hle _ _ _ hid) (hf.mono hle)
  | builtin b => exact .builtin b

theorem Values.Related.mono {vs ws : List Value} (h : Values.Related ρ vs ws) (hle : ρ ≤ ρ') :
    Values.Related ρ' vs ws := h.imp fun _ _ hr => hr.mono hle

theorem Fields.Related.mono {fs gs : List (String × Value)} (h : Fields.Related ρ fs gs)
    (hle : ρ ≤ ρ') : Fields.Related ρ' fs gs := h.imp fun _ _ hr => ⟨hr.1, hr.2.mono hle⟩

/-! ## Heaps -/

def Heap.Matches (ρ : Renaming) (h h' : Heap) (k : Kind) (a b : Nat) : Prop :=
  match k with
  | .array => Values.Related ρ (h.arrayAt ⟨a⟩).toList (h'.arrayAt ⟨b⟩).toList
  | .map => Fields.Related ρ (h.mapAt ⟨a⟩).entries (h'.mapAt ⟨b⟩).entries
  | .cell => (h.cellAt ⟨a⟩).Related ρ (h'.cellAt ⟨b⟩)
  | .identity => True

/-- Two heaps with paired objects that hold related values. -/
structure Heap.Related (ρ : Renaming) (h h' : Heap) : Prop where
  bounds : ∀ {k a b}, ρ.rel k a b → a < h.count k ∧ b < h'.count k
  contents : ∀ {k a b}, ρ.rel k a b → Heap.Matches ρ h h' k a b

namespace Heap

variable {h h' h₁ h₁' : Heap} {k : Kind} {a b : Nat}

/-- Related contents stay related. -/
theorem Matches.mono (hm : Matches ρ h h' k a b) (hle : ρ ≤ ρ') : Matches ρ' h h' k a b := by
  cases k with
  | array => exact Values.Related.mono hm hle
  | map => exact Fields.Related.mono hm hle
  | cell => exact Value.Related.mono hm hle
  | identity => trivial

/-- What two objects hold is compared, so unchanged objects go on matching. -/
theorem Matches.of_same (hm : Matches ρ h h' k a b) (hs : h.Same h₁ k a) (hs' : h'.Same h₁' k b) :
    Matches ρ h₁ h₁' k a b := by
  cases k with
  | identity => trivial
  | _ =>
    simp only [Matches, Same] at *
    rw [hs, hs']
    exact hm

namespace Related

variable (hr : Related ρ h h')
include hr

/-- What is not paired does not matter. -/
theorem of_same (hc : ∀ k, h.count k ≤ h₁.count k) (hc' : ∀ k, h'.count k ≤ h₁'.count k)
    (hs : ∀ {k a b}, ρ.rel k a b → h.Same h₁ k a ∧ h'.Same h₁' k b) : Related ρ h₁ h₁' where
  bounds hrel :=
    ⟨Nat.lt_of_lt_of_le (hr.bounds hrel).1 (hc _), Nat.lt_of_lt_of_le (hr.bounds hrel).2 (hc' _)⟩
  contents hrel := (hr.contents hrel).of_same (hs hrel).1 (hs hrel).2

theorem pair (ha : a < h.count k) (hb : b < h'.count k) {hna hnb}
    (hm : Matches (ρ.pair k a b hna hnb) h h' k a b) : Related (ρ.pair k a b hna hnb) h h' where
  bounds := by
    rintro k' a' b' (hrel | ⟨rfl, rfl, rfl⟩)
    · exact hr.bounds hrel
    · exact ⟨ha, hb⟩
  contents := by
    rintro k' a' b' (hrel | ⟨rfl, rfl, rfl⟩)
    · exact (hr.contents hrel).mono Renaming.le_pair
    · exact hm

/-- The renaming where the next object of each heap stands for that of the other. -/
def next (k : Kind) : Renaming :=
  ρ.pair k (h.count k) (h'.count k) (fun _ hrel => Nat.lt_irrefl _ (hr.bounds hrel).1)
    fun _ hrel => Nat.lt_irrefl _ (hr.bounds hrel).2

theorem le_next : ρ ≤ hr.next k := Renaming.le_pair

theorem rel_next : (hr.next k).rel k (h.count k) (h'.count k) := Renaming.rel_pair

end Related
end Heap

/-! ## Worlds

Two computations are compared over the world that they run in. How a world may become another says
what either of them can have done to its heap.
-/

structure World where
  ρ : Renaming
  left : Heap
  right : Heap

namespace World

def Valid (w : World) : Prop := Heap.Related w.ρ w.left w.right

/-- Objects are added, new ones are paired, and paired ones written to. -/
structure Grows (w w₁ : World) : Prop where
  le : w.ρ ≤ w₁.ρ
  fresh : ∀ {k a b}, w₁.ρ.rel k a b →
    w.ρ.rel k a b ∨ w.left.count k ≤ a ∧ w.right.count k ≤ b
  leftCount : ∀ k, w.left.count k ≤ w₁.left.count k
  rightCount : ∀ k, w.right.count k ≤ w₁.right.count k
  left : ∀ {k a}, a < w.left.count k → (∀ b, ¬ w.ρ.rel k a b) → w.left.Same w₁.left k a
  right : ∀ {k b}, b < w.right.count k → (∀ a, ¬ w.ρ.rel k a b) →
    w.right.Same w₁.right k b

def Above (ρ : Renaming) (w : World) : Prop := ρ ≤ w.ρ

/-- Objects are added and paired, and none is written to. -/
structure Extends (w w₁ : World) : Prop where
  le : w.ρ ≤ w₁.ρ
  fresh : ∀ {k a b}, w₁.ρ.rel k a b →
    w.ρ.rel k a b ∨ w.left.count k ≤ a ∧ w.right.count k ≤ b
  leftCount : ∀ k, w.left.count k ≤ w₁.left.count k
  rightCount : ∀ k, w.right.count k ≤ w₁.right.count k
  left : ∀ {k a}, a < w.left.count k → w.left.Same w₁.left k a
  right : ∀ {k b}, b < w.right.count k → w.right.Same w₁.right k b

/-- A way for worlds to grow: by extension at least, and no more than `Grows` has it. -/
class Growth (G : World → World → Prop) : Prop where
  refl : ∀ w, G w w
  trans : ∀ {w w₁ w₂}, G w w₁ → G w₁ w₂ → G w w₂
  of_extends : ∀ {w w₁}, Extends w w₁ → G w w₁
  grows : ∀ {w w₁}, G w w₁ → Grows w w₁

variable {w w₁ w₂ : World}

/-- Where nothing is written to, what has been paired is as it was. -/
theorem Extends.grows (h : w.Extends w₁) : w.Grows w₁ :=
  { h with
    left := fun ha _ => h.left ha
    right := fun hb _ => h.right hb }

theorem Extends.refl (w : World) : w.Extends w where
  le := le_refl _
  fresh := .inl
  leftCount _ := Nat.le_refl _
  rightCount _ := Nat.le_refl _
  left _ := .refl ..
  right _ := .refl ..

/-- An object that is there and not paired is never paired later. -/
theorem Grows.unpaired_left (h : w.Grows w₁) {k : Kind} {a : Nat} (ha : a < w.left.count k)
    (hna : ∀ b, ¬ w.ρ.rel k a b) (b : Nat) : ¬ w₁.ρ.rel k a b := by
  intro hrel
  rcases h.fresh hrel with hrel | ⟨hle, -⟩
  · exact hna b hrel
  · exact Nat.not_le_of_lt ha hle

theorem Grows.unpaired_right (h : w.Grows w₁) {k : Kind} {b : Nat} (hb : b < w.right.count k)
    (hnb : ∀ a, ¬ w.ρ.rel k a b) (a : Nat) : ¬ w₁.ρ.rel k a b := by
  intro hrel
  rcases h.fresh hrel with hrel | ⟨-, hle⟩
  · exact hnb a hrel
  · exact Nat.not_le_of_lt hb hle

/-- An object that is paired by the second step has been unpaired or new before it. -/
theorem Grows.trans (h : w.Grows w₁) (h' : w₁.Grows w₂) : w.Grows w₂ where
  le := h.le.trans h'.le
  fresh hrel := by
    rcases h'.fresh hrel with hrel | ⟨ha, hb⟩
    · exact h.fresh hrel
    · exact .inr ⟨Nat.le_trans (h.leftCount _) ha, Nat.le_trans (h.rightCount _) hb⟩
  leftCount k := Nat.le_trans (h.leftCount k) (h'.leftCount k)
  rightCount k := Nat.le_trans (h.rightCount k) (h'.rightCount k)
  left ha hna := (h.left ha hna).trans
    (h'.left (Nat.lt_of_lt_of_le ha (h.leftCount _)) (h.unpaired_left ha hna))
  right hb hnb := (h.right hb hnb).trans
    (h'.right (Nat.lt_of_lt_of_le hb (h.rightCount _)) (h.unpaired_right hb hnb))

theorem Extends.trans (h : w.Extends w₁) (h' : w₁.Extends w₂) : w.Extends w₂ :=
  { h.grows.trans h'.grows with
    left := fun ha => (h.left ha).trans (h'.left (Nat.lt_of_lt_of_le ha (h.leftCount _)))
    right := fun hb => (h.right hb).trans (h'.right (Nat.lt_of_lt_of_le hb (h.rightCount _))) }

/-- A valid world where every object of `h` stands for itself has grown from `h` beside itself: an
object of `h` has no other counterpart, so that all other pairs are of new objects. -/
theorem Valid.grows_of_same {h : Heap} (hv : w.Valid) (hle : .same h ≤ w.ρ) :
    Grows ⟨.same h, h, h⟩ w where
  le := hle
  fresh := by
    intro k a b hrel
    rcases Nat.lt_or_ge a (h.count k) with ha | ha
    · exact .inl ⟨(w.ρ.unique (hle k a a ⟨rfl, ha⟩) hrel).1 rfl, ha⟩
    · refine .inr ⟨ha, Nat.le_of_not_lt fun hb => ?_⟩
      have heq : b = a := (w.ρ.unique (hle k b b ⟨rfl, hb⟩) hrel).2 rfl
      exact absurd (heq ▸ hb) (Nat.not_lt.2 ha)
  leftCount k := Nat.le_of_not_lt fun hlt =>
    Nat.lt_irrefl _ (hv.bounds (hle k _ _ ⟨rfl, hlt⟩)).1
  rightCount k := Nat.le_of_not_lt fun hlt =>
    Nat.lt_irrefl _ (hv.bounds (hle k _ _ ⟨rfl, hlt⟩)).2
  left ha hna := absurd ⟨rfl, ha⟩ (hna _)
  right hb hnb := absurd ⟨rfl, hb⟩ (hnb _)

instance : Growth Extends where
  refl := .refl
  trans := .trans
  of_extends := id
  grows := Extends.grows

instance : Growth Grows where
  refl w := (Extends.refl w).grows
  trans := .trans
  of_extends := Extends.grows
  grows := id

end World

/-! ## Adding and writing on both sides -/

namespace Heap.Related

variable {h h' h₁ h₁' : Heap} {k : Kind} {a b : Nat} (hr : Related ρ h h')
include hr

/-- Of two objects that are added, each stands for the other. -/
theorem add (hadd : Adds k h h₁) (hadd' : Adds k h' h₁')
    (hm : Matches (hr.next k) h₁ h₁' k (h.count k) (h'.count k)) :
    World.Extends ⟨ρ, h, h'⟩ ⟨hr.next k, h₁, h₁'⟩ ∧ Related (hr.next k) h₁ h₁' := by
  refine ⟨⟨hr.le_next, ?_, hadd.le, hadd'.le, hadd.same _ _, hadd'.same _ _⟩, ?_⟩
  · rintro k' a b (hrel | ⟨rfl, rfl, rfl⟩)
    · exact .inl hrel
    · exact .inr ⟨Nat.le_refl _, Nat.le_refl _⟩
  · have hold : Related ρ h₁ h₁' := hr.of_same hadd.le hadd'.le fun hrel =>
      ⟨hadd.same _ _ (hr.bounds hrel).1, hadd'.same _ _ (hr.bounds hrel).2⟩
    exact hold.pair hadd.lt hadd'.lt hm

/-- Paired objects are written to. -/
theorem set (hrel : ρ.rel k a b) (hset : Sets k a h h₁) (hset' : Sets k b h' h₁')
    (hm : Matches ρ h₁ h₁' k a b) :
    World.Grows ⟨ρ, h, h'⟩ ⟨ρ, h₁, h₁'⟩ ∧ Related ρ h₁ h₁' := by
  refine ⟨⟨le_refl _, .inl, fun k => Nat.le_of_eq (hset.count k).symm,
    fun k => Nat.le_of_eq (hset'.count k).symm, ?_, ?_⟩, ?_, ?_⟩
  · intro k' a' _ hna
    refine hset.same _ _ (not_and_or.1 ?_)
    rintro ⟨rfl, rfl⟩
    exact hna _ hrel
  · intro k' b' _ hnb
    refine hset'.same _ _ (not_and_or.1 ?_)
    rintro ⟨rfl, rfl⟩
    exact hnb _ hrel
  · intro k' a' b' hrel'
    rw [hset.count, hset'.count]
    exact hr.bounds hrel'
  · intro k' a' b' hrel'
    by_cases hk : k' = k ∧ a' = a
    · obtain ⟨rfl, rfl⟩ := hk
      rwa [← (ρ.unique hrel hrel').1 rfl]
    · refine (hr.contents hrel').of_same (hset.same _ _ (not_and_or.1 hk))
        (hset'.same _ _ (not_and_or.1 ?_))
      rintro ⟨rfl, rfl⟩
      exact hk ⟨rfl, (ρ.unique hrel' hrel).2 rfl⟩

end Heap.Related
end ScriptVM
