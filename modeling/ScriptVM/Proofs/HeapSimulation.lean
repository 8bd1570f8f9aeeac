import ScriptVM.Builtin.Sample
import ScriptVM.Proofs.Observation

/-!
# Computations over related heaps

A computation over a heap cannot tell a heap from a related one. `Sim` says so of two computations:
begun in related heaps, they end alike, in heaps that are related again in a grown world. It is
closed under sequencing, and everything that the machine does with its heap satisfies it.
-/

namespace ScriptVM.HeapM

open World

variable {ε α β γ δ : Type} {G : World → World → Prop} [Growth G] {w : World}

/-- Begun in a valid world that has grown from `w`, the computations end alike, in a valid world
that has grown further and where their answers are as `Q` has it. -/
def Sim (G : World → World → Prop) (w : World) (x : EStateM ε Heap α) (y : EStateM ε Heap β)
    (Q : World → α → β → Prop) : Prop :=
  ∀ w₁, G w w₁ → w₁.Valid →
    match x w₁.left, y w₁.right with
    | .ok a h, .ok b h' => ∃ ρ, G w₁ ⟨ρ, h, h'⟩ ∧ Valid ⟨ρ, h, h'⟩ ∧ Q ⟨ρ, h, h'⟩ a b
    | .error e h, .error e' h' => e = e' ∧ ∃ ρ, G w₁ ⟨ρ, h, h'⟩ ∧ Valid ⟨ρ, h, h'⟩
    | _, _ => False

variable {x : EStateM ε Heap α} {y : EStateM ε Heap β} {k : α → EStateM ε Heap γ}
  {l : β → EStateM ε Heap δ}
  {Q Q' : World → α → β → Prop} {R : World → γ → δ → Prop}

/-! ## Sequencing

Worlds grow on the way, and what has been related stays related. So the second parts of two
sequences are compared in whatever world the first ones have ended in.
-/

/-- It does not matter if the world has grown before the computations begin. -/
theorem Sim.later {w₁ : World} (h : Sim G w x y Q) (hg : G w w₁) : Sim G w₁ x y Q :=
  fun w₂ hg' => h w₂ (Growth.trans hg hg')

omit [Growth G] in
/-- Both computations answer, or both fail with the same fault. -/
theorem Sim.cases {w₁ : World} (h : Sim G w x y Q) (hg : G w w₁) (hv : w₁.Valid) :
    (∃ a b w₂, x w₁.left = .ok a w₂.left ∧ y w₁.right = .ok b w₂.right ∧ G w₁ w₂ ∧ w₂.Valid ∧
        Q w₂ a b) ∨
      ∃ e w₂, x w₁.left = .error e w₂.left ∧ y w₁.right = .error e w₂.right ∧ G w₁ w₂ ∧
        w₂.Valid := by
  have h := h w₁ hg hv
  cases hx : x w₁.left with
  | ok a h₁ =>
    cases hy : y w₁.right with
    | error e' h₁' => simp only [hx, hy] at h
    | ok b h₁' =>
      simp only [hx, hy] at h
      obtain ⟨ρ, hg₁, hv₁, hq⟩ := h
      exact .inl ⟨a, b, ⟨ρ, h₁, h₁'⟩, rfl, rfl, hg₁, hv₁, hq⟩
  | error e h₁ =>
    cases hy : y w₁.right with
    | ok b h₁' => simp only [hx, hy] at h
    | error e' h₁' =>
      simp only [hx, hy] at h
      obtain ⟨rfl, ρ, hg₁, hv₁⟩ := h
      exact .inr ⟨e, ⟨ρ, h₁, h₁'⟩, rfl, rfl, hg₁, hv₁⟩

/-- The answers of the first parts are related when the second parts begin with them. -/
theorem Sim.bind (hx : Sim G w x y Q)
    (hk : ∀ w₁ a b, G w w₁ → Q w₁ a b → Sim G w₁ (k a) (l b) R) :
    Sim G w (x >>= k) (y >>= l) R := by
  intro w₁ hg hv
  simp only [Bind.bind, EStateM.bind]
  obtain ⟨a, b, w₂, hx, hy, hg₁, hv₁, hq⟩ | ⟨e, w₂, hx, hy, hend⟩ := hx.cases hg hv
  · rw [hx, hy]
    dsimp only
    obtain ⟨c, d, w₃, hk, hl, hg₂, hend⟩ | ⟨e, w₃, hk, hl, hg₂, hv₂⟩ :=
      (hk w₂ a b (Growth.trans hg hg₁) hq).cases (Growth.refl w₂) hv₁
    · rw [hk, hl]
      exact ⟨w₃.ρ, Growth.trans hg₁ hg₂, hend⟩
    · rw [hk, hl]
      exact ⟨rfl, w₃.ρ, Growth.trans hg₁ hg₂, hv₂⟩
  · rw [hx, hy]
    exact ⟨rfl, w₂.ρ, hend⟩

theorem sim_pure {a : α} {b : β} (h : ∀ w₁, G w w₁ → Q w₁ a b) :
    Sim G w (pure a : EStateM ε Heap α) (pure b) Q :=
  fun w₁ hg hv => ⟨w₁.ρ, Growth.refl _, hv, h w₁ hg⟩

theorem sim_throw (e : ε) :
    Sim G w (throw e : EStateM ε Heap α) (throw e : EStateM ε Heap β) Q :=
  fun w₁ _ hv => ⟨rfl, w₁.ρ, Growth.refl _, hv⟩

/-- Looking at the heap gives related heaps, which may hold different objects. -/
theorem sim_get : Sim G w (get : EStateM ε Heap Heap) get fun w₁ h h' =>
    w₁.Valid ∧ h = w₁.left ∧ h' = w₁.right :=
  fun w₁ _ hv => ⟨w₁.ρ, Growth.refl _, hv, hv, rfl, rfl⟩

/-- A check that depends on nothing but related values has related outcomes. -/
theorem sim_ofExcept {r : Except Fault α} {r' : Except Fault β}
    (h : Alike (fun a b => ∀ w₁, G w w₁ → Q w₁ a b) r r') :
    Sim G w (ofExcept r) (ofExcept r') Q := by
  cases h with
  | ok h => exact sim_pure h
  | error e => exact sim_throw e

theorem sim_ofExcept_eq {r r' : Except Fault α} (h : r = r') :
    Sim G w (ofExcept r) (ofExcept r') fun _ a b => a = b := by
  subst h
  cases r with
  | ok a => exact sim_pure fun _ _ => rfl
  | error e => exact sim_throw e

/-- What is alike as long as worlds are only extended is alike. -/
theorem Sim.of_extends (h : ∀ w₁, G w w₁ → w₁.Valid → Sim Extends w₁ x y Q) : Sim G w x y Q := by
  intro w₁ hg hv
  obtain ⟨a, b, w₂, hx, hy, hg₁, hend⟩ | ⟨e, w₂, hx, hy, hg₁, hv₁⟩ :=
    (h w₁ hg hv).cases (.refl _) hv
  · rw [hx, hy]
    exact ⟨w₂.ρ, Growth.of_extends hg₁, hend⟩
  · rw [hx, hy]
    exact ⟨rfl, w₂.ρ, Growth.of_extends hg₁, hv₁⟩

/-! ## New objects

An object that is made on both sides is paired in the next world. That the two have different
numbers is what renamings are for.
-/

abbrev Same (w : World) (v v' : Value) : Prop := v.Related w.ρ v'

theorem le_of_growth {w₁ : World} (hg : G w w₁) : w.ρ ≤ w₁.ρ := (Growth.grows hg).le

/-- The new arrays are paired; what they hold is paired already. -/
theorem sim_newArray {items items' : Array Value}
    (h : Values.Related w.ρ items.toList items'.toList) :
    Sim G w (newArray items) (newArray items') Same := by
  intro w₁ hg hv
  have hv' : Heap.Related w₁.ρ w₁.left w₁.right := hv
  have hm : Heap.Matches (hv'.next .array) (w₁.left.addArray items).2
      (w₁.right.addArray items').2 .array (w₁.left.count .array) (w₁.right.count .array) := by
    simp only [Heap.Matches, Heap.arrayAt_addArray, Heap.count, if_true]
    exact h.mono ((le_of_growth hg).trans hv'.le_next)
  obtain ⟨hext, hv₁⟩ := hv'.add (Heap.adds_addArray _ _) (Heap.adds_addArray _ _) hm
  exact ⟨_, Growth.of_extends hext, hv₁, .array hv'.rel_next⟩

theorem sim_newArrayOf {vs vs' : List Value} (h : Values.Related w.ρ vs vs') :
    Sim G w (newArray vs.toArray) (newArray vs'.toArray) Same :=
  sim_newArray (by simpa using h)

theorem sim_newMap {fields fields' : FieldMap Value}
    (h : Fields.Related w.ρ fields.entries fields'.entries) :
    Sim G w (newMap fields) (newMap fields') Same := by
  intro w₁ hg hv
  have hv' : Heap.Related w₁.ρ w₁.left w₁.right := hv
  have hm : Heap.Matches (hv'.next .map) (w₁.left.addMap fields).2
      (w₁.right.addMap fields').2 .map (w₁.left.count .map) (w₁.right.count .map) := by
    simp only [Heap.Matches, Heap.mapAt_addMap, Heap.count, if_true]
    exact h.mono ((le_of_growth hg).trans hv'.le_next)
  obtain ⟨hext, hv₁⟩ := hv'.add (Heap.adds_addMap _ _) (Heap.adds_addMap _ _) hm
  exact ⟨_, Growth.of_extends hext, hv₁, .map hv'.rel_next⟩

theorem sim_newCell {v v' : Value} (h : v.Related w.ρ v') :
    Sim G w (newCell v) (newCell v') fun w₁ c d => w₁.ρ.rel .cell c.index d.index := by
  intro w₁ hg hv
  have hv' : Heap.Related w₁.ρ w₁.left w₁.right := hv
  have hm : Heap.Matches (hv'.next .cell) (w₁.left.addCell v).2
      (w₁.right.addCell v').2 .cell (w₁.left.count .cell) (w₁.right.count .cell) := by
    simp only [Heap.Matches, Heap.cellAt_addCell, Heap.count, if_true]
    exact h.mono ((le_of_growth hg).trans hv'.le_next)
  obtain ⟨hext, hv₁⟩ := hv'.add (Heap.adds_addCell _ _) (Heap.adds_addCell _ _) hm
  exact ⟨_, Growth.of_extends hext, hv₁, hv'.rel_next⟩

/-- Closures of related functions are new objects on both sides, and related. -/
theorem sim_newFunction {f f' : Function} (h : f.Related w.ρ f') :
    Sim G w (newFunction f) (newFunction f') fun w₁ o o' =>
      Same w₁ (.function o) (.function o') := by
  intro w₁ hg hv
  have hv' : Heap.Related w₁.ρ w₁.left w₁.right := hv
  obtain ⟨hext, hv₁⟩ :=
    hv'.add (Heap.adds_addIdentity _) (Heap.adds_addIdentity _) (k := .identity) trivial
  exact ⟨_, Growth.of_extends hext, hv₁,
    .function hv'.rel_next (h.mono ((le_of_growth hg).trans hv'.le_next))⟩

/-! ## Lists of values -/

/-- The list is worked off in step on both sides, and the answers so far stay related as worlds
grow. -/
theorem sim_mapM {k l : Value → HeapM Value}
    (hk : ∀ v v', v.Related w.ρ v' → Sim G w (k v) (l v') Same) {vs vs' : List Value}
    (h : Values.Related w.ρ vs vs') :
    Sim G w (vs.mapM k) (vs'.mapM l) fun w₁ => Values.Related w₁.ρ := by
  induction h with
  | nil =>
    rw [List.mapM_nil, List.mapM_nil]
    exact sim_pure fun _ _ => .nil
  | @cons v v' _ _ hv _ ih =>
    rw [List.mapM_cons, List.mapM_cons]
    refine (hk v v' hv).bind fun w₁ a b hg hab => ?_
    refine (ih.later hg).bind fun w₂ as bs hg₁ hs => sim_pure fun w₃ hg₂ => ?_
    have hle : w₁.ρ ≤ w₃.ρ := le_of_growth (Growth.trans hg₁ hg₂)
    exact .cons (hab.mono hle) (hs.mono (le_of_growth hg₂))

theorem sim_traverse {k l : Value → HeapM Value}
    (hk : ∀ v v', v.Related w.ρ v' → Sim G w (k v) (l v') Same) {fields fields' : FieldMap Value}
    (h : Fields.Related w.ρ fields.entries fields'.entries) :
    Sim G w (fields.traverse k) (fields'.traverse l) fun w₁ fs fs' =>
      Fields.Related w₁.ρ fs.entries fs'.entries := by
  have hentries : ∀ {es es' : List (String × Value)}, Fields.Related w.ρ es es' →
      Sim G w (FieldMap.traverseEntries k es) (FieldMap.traverseEntries l es') fun w₁ r r' =>
        Fields.Related w₁.ρ r.1 r'.1 := by
    intro es es' he
    induction he with
    | nil => exact sim_pure fun _ _ => .nil
    | @cons p q _ _ hp _ ih =>
      refine (hk p.2 q.2 hp.2).bind fun w₁ a b hg hab => ?_
      refine (ih.later hg).bind fun w₂ r r' hg₁ hr => sim_pure fun w₃ hg₂ => ?_
      have hle : w₁.ρ ≤ w₃.ρ := le_of_growth (Growth.trans hg₁ hg₂)
      exact .cons ⟨hp.1, hab.mono hle⟩ (hr.mono (le_of_growth hg₂))
  exact (hentries h).bind fun w₁ r r' _ hr => sim_pure fun w₂ hg => hr.mono (le_of_growth hg)

/-! ## Copies

A copy is made of what a value reaches in the heap as it is at the start. The copies that are made
on the way do not change that, which is why worlds are only extended here.
-/

/-- Whatever the depth, only references are treated differently from `copyWith`. -/
theorem copyUpTo_eq (n : Nat) (path : List Container) (v : Value) :
    v.copyUpTo n path = v.copyWith (fun ref => (Value.array ref).copyUpTo n path)
      fun ref => (Value.map ref).copyUpTo n path := by
  cases n <;> rfl

/-- An array of the heap is copied with what it holds, unless it is on the path. The depth suffices
as long as it is no less than the number of containers that are not on the path. -/
theorem copyUpTo_array {h : Heap} {n : Nat} {path : List Container} {ref : ArrayRef}
    (hmem : .array ref ∈ h.inventory) (hn : unvisited h.inventory path ≤ n) :
    (Value.array ref).copyUpTo n path =
      if .array ref ∈ path then newArray #[]
      else (do
        let items ← ((← get).arrayAt ref).toList.mapM
          (Value.copyUpTo (n - 1) (.array ref :: path))
        newArray items.toArray) := by
  cases n with
  | succ n => rfl
  | zero =>
    rw [if_pos (mem_of_unvisited_le_zero hmem hn)]
    rfl

theorem copyUpTo_map {h : Heap} {n : Nat} {path : List Container} {ref : MapRef}
    (hmem : .map ref ∈ h.inventory) (hn : unvisited h.inventory path ≤ n) :
    (Value.map ref).copyUpTo n path =
      if .map ref ∈ path then newMap FieldMap.empty
      else (do
        let fields ← ((← get).mapAt ref).traverse (Value.copyUpTo (n - 1) (.map ref :: path))
        newMap fields) := by
  cases n with
  | succ n => rfl
  | zero =>
    rw [if_pos (mem_of_unvisited_le_zero hmem hn)]
    rfl

/-- Copies of values are alike if those of paired containers are. -/
theorem sim_copyWith {array array' : ArrayRef → HeapM Value} {map map' : MapRef → HeapM Value}
    (ha : ∀ {a b : ArrayRef}, w.ρ.rel .array a.index b.index → Sim G w (array a) (array' b) Same)
    (hm : ∀ {a b : MapRef}, w.ρ.rel .map a.index b.index → Sim G w (map a) (map' b) Same)
    {v v' : Value} (hv : v.Related w.ρ v') :
    Sim G w (v.copyWith array map) (v'.copyWith array' map') Same := by
  have hpure {u u' : Value} (hu : u.Related w.ρ u') :
      Sim G w (pure u : HeapM Value) (pure u') Same :=
    sim_pure fun _ hg => hu.mono (le_of_growth hg)
  induction hv with
  | array hrel => exact ha hrel
  | map hrel => exact hm hrel
  | error _ ih =>
    refine ih.bind fun w₁ a b _ hab => sim_pure fun w₂ hg => ?_
    exact Value.Related.error (hab.mono (le_of_growth hg))
  | undefined => exact hpure .undefined
  | bool b => exact hpure (.bool b)
  | int n => exact hpure (.int n)
  | float x => exact hpure (.float x)
  | string s => exact hpure (.string s)
  | function hid hf => exact hpure (.function hid hf)
  | builtin b => exact hpure (.builtin b)

/-- The two heaps may have different numbers of containers, and so the depths are different. What
counts is that both suffice for the containers that have not been visited. -/
theorem sim_copyUpTo (hw : w.Valid) {n n' : Nat} {path path' : List Container}
    (hpath : List.Forall₂ (Container.Related w.ρ) path path')
    (hn : unvisited w.left.inventory path ≤ n) (hn' : unvisited w.right.inventory path' ≤ n')
    {v v' : Value} (hv : v.Related w.ρ v') :
    Sim Extends w (v.copyUpTo n path) (v'.copyUpTo n' path') Same := by
  induction n using Nat.strongRecOn generalizing n' path path' v v' with
  | ind n ih =>
  rw [copyUpTo_eq, copyUpTo_eq n']
  refine sim_copyWith (fun {a b} hrel => ?_) (fun {a b} hrel => ?_) hv
  · have hc : (Container.array a).Related w.ρ (.array b) := .array hrel
    have hmem := hc.mem_inventory hw
    rw [copyUpTo_array hmem.1 hn, copyUpTo_array hmem.2 hn']
    obtain ⟨hon, hon'⟩ | ⟨hon, hon', hlt, hpath, hn, hn'⟩ :=
      met_or_goesOn Container.biUnique_related hc hmem hpath hn hn'
    · rw [if_pos hon, if_pos hon']
      exact sim_newArray .nil
    · rw [if_neg hon, if_neg hon']
      refine sim_get.bind fun w₁ h h' hg hget => ?_
      obtain ⟨-, rfl, rfl⟩ := hget
      -- Containers that were there are as they were, whatever has been copied since.
      have hsame : w₁.left.arrayAt a = w.left.arrayAt a := hg.left (hw.bounds hrel).1
      have hsame' : w₁.right.arrayAt b = w.right.arrayAt b := hg.right (hw.bounds hrel).2
      rw [hsame, hsame']
      have hstep (v v' : Value) (hv : v.Related w.ρ v') := ih (n - 1) hlt hpath hn hn' hv
      refine ((sim_mapM hstep (hw.contents hrel)).later hg).bind fun w₂ as bs _ hs => ?_
      exact sim_newArrayOf hs
  · have hc : (Container.map a).Related w.ρ (.map b) := .map hrel
    have hmem := hc.mem_inventory hw
    rw [copyUpTo_map hmem.1 hn, copyUpTo_map hmem.2 hn']
    obtain ⟨hon, hon'⟩ | ⟨hon, hon', hlt, hpath, hn, hn'⟩ :=
      met_or_goesOn Container.biUnique_related hc hmem hpath hn hn'
    · rw [if_pos hon, if_pos hon']
      exact sim_newMap .nil
    · rw [if_neg hon, if_neg hon']
      refine sim_get.bind fun w₁ h h' hg hget => ?_
      obtain ⟨-, rfl, rfl⟩ := hget
      have hsame : w₁.left.mapAt a = w.left.mapAt a := hg.left (hw.bounds hrel).1
      have hsame' : w₁.right.mapAt b = w.right.mapAt b := hg.right (hw.bounds hrel).2
      rw [hsame, hsame']
      have hstep (v v' : Value) (hv : v.Related w.ρ v') := ih (n - 1) hlt hpath hn hn' hv
      refine ((sim_traverse hstep (hw.contents hrel)).later hg).bind fun w₂ fs fs' _ hs => ?_
      exact sim_newMap hs

/-- The depth is the number of all containers, which suffices at the start. -/
theorem sim_deepCopy {v v' : Value} (hv : v.Related w.ρ v') :
    Sim G w v.deepCopy v'.deepCopy Same := by
  refine Sim.of_extends fun w₁ hg _ => sim_get.bind fun w₂ h h' hg' hget => ?_
  obtain ⟨hv₂, rfl, rfl⟩ := hget
  refine sim_copyUpTo hv₂ .nil ?_ ?_ (hv.mono ((le_of_growth hg).trans hg'.le))
  · exact w₂.left.length_inventory ▸ unvisited_le ..
  · exact w₂.right.length_inventory ▸ unvisited_le ..

/-! ## Writing

A write to paired objects keeps their contents related. It is the only change to objects that the
worlds have known before, and so the growth is `Grows` here, not just any.
-/

/-- Paired cells hold related values again. -/
theorem sim_setCell {c d : CellRef} {v v' : Value} (hc : w.ρ.rel .cell c.index d.index)
    (hv : v.Related w.ρ v') :
    Sim Grows w (modify fun h => h.setCell c v : HeapM Unit) (modify fun h => h.setCell d v')
      fun _ _ _ => True := by
  intro w₁ hg hv₁
  have hrel : w₁.ρ.rel .cell c.index d.index := hg.le _ _ _ hc
  have hb := hv₁.bounds hrel
  have hm : Heap.Matches w₁.ρ (w₁.left.setCell c v) (w₁.right.setCell d v') .cell c.index
      d.index := by
    have hb' : c.index < w₁.left.cells.size ∧ d.index < w₁.right.cells.size := hb
    simp only [Heap.Matches, Heap.cellAt_setCell, hb'.1, hb'.2, and_self, if_true]
    exact hv.mono hg.le
  obtain ⟨hg₁, hr⟩ := Heap.Related.set hv₁ hrel (Heap.sets_setCell _ _ _)
    (Heap.sets_setCell _ _ _) hm
  exact ⟨w₁.ρ, hg₁, hr, trivial⟩

theorem sim_write {p p' : Place} {v v' : Value} (hp : p.Related w.ρ p')
    (hv : v.Related w.ρ v') :
    Sim Grows w (modify fun h => h.write v p : HeapM Unit) (modify fun h => h.write v' p')
      fun _ _ _ => True := by
  intro w₁ hg hv₁
  cases hp with
  | @element a b hab i =>
    have hrel : w₁.ρ.rel .array a.index b.index := hg.le _ _ _ hab
    have hm : Heap.Matches w₁.ρ (w₁.left.setElement a i v) (w₁.right.setElement b i v') .array
        a.index b.index := by
      simp only [Heap.Matches, Heap.arrayAt_setElement, if_true, Array.toList_setIfInBounds]
      exact Heap.set_related (hv₁.contents hrel) i (hv.mono hg.le)
    obtain ⟨hg₁, hr⟩ := Heap.Related.set hv₁ hrel (Heap.sets_setElement ..)
      (Heap.sets_setElement ..) hm
    exact ⟨w₁.ρ, hg₁, hr, trivial⟩
  | @field a b hab key =>
    have hrel : w₁.ρ.rel .map a.index b.index := hg.le _ _ _ hab
    have hb : a.index < w₁.left.maps.size ∧ b.index < w₁.right.maps.size := hv₁.bounds hrel
    have hm : Heap.Matches w₁.ρ (w₁.left.setField a key v) (w₁.right.setField b key v') .map
        a.index b.index := by
      simp only [Heap.Matches, Heap.mapAt_setField, hb.1, hb.2, and_self, if_true]
      exact Heap.insertEntry_related (hv₁.contents hrel) key (hv.mono hg.le)
    obtain ⟨hg₁, hr⟩ := Heap.Related.set hv₁ hrel (Heap.sets_setField ..)
      (Heap.sets_setField ..) hm
    exact ⟨w₁.ρ, hg₁, hr, trivial⟩

/-- The places are paired, or there is none on both sides. -/
theorem sim_assign {receiver receiver' key key' v v' : Value}
    (hr : receiver.Related w.ρ receiver') (hk : key.Related w.ρ key') (hv : v.Related w.ρ v') :
    Sim Grows w (assign receiver key v) (assign receiver' key' v') fun _ _ _ => True := by
  refine sim_get.bind fun w₁ h h' hg hget => ?_
  obtain ⟨hv₁, rfl, rfl⟩ := hget
  have hplace := Heap.place_related hv₁ (hr.mono hg.le) (hk.mono hg.le)
  refine Sim.bind (Q := fun w₂ p p' => p.Related w₂.ρ p' ∧ v.Related w₂.ρ v') ?_
    fun w₂ p p' _ hp => sim_write hp.1 hp.2
  refine sim_ofExcept (hplace.imp fun p p' hp w₂ hg₂ => ?_)
  exact ⟨hp.mono hg₂.le, (hv.mono hg.le).mono hg₂.le⟩

/-! ## Operators and slices -/

theorem sim_onOthers (op : Opcode) {v v' u u' : Value} (hv : v.Related w.ρ v')
    (hu : u.Related w.ρ u') :
    Sim G w (Operator.onOthers op v u) (Operator.onOthers op v' u') Same := by
  have hfault : Sim G w (throw (Operator.invalidBinary op v.typeName u.typeName) : HeapM Value)
      (throw (Operator.invalidBinary op v'.typeName u'.typeName) : HeapM Value) Same := by
    rw [hv.typeName_eq, hu.typeName_eq]
    exact sim_throw _
  by_cases hop : op = .add
  · subst hop
    cases hv with
    | string s =>
      refine sim_get.bind fun w₁ h h' hg hget => sim_pure fun w₂ hg₂ => ?_
      obtain ⟨hv₁, rfl, rfl⟩ := hget
      rw [Heap.textOf_related hv₁ (hu.mono (le_of_growth hg))]
      exact .string _
    | array hrel =>
      cases hu with
      | array hrel' =>
        refine sim_get.bind fun w₁ h h' hg hget => sim_newArray ?_
        obtain ⟨hv₁, rfl, rfl⟩ := hget
        rw [Array.toList_append, Array.toList_append]
        exact List.rel_append (hv₁.contents (le_of_growth hg _ _ _ hrel))
          (hv₁.contents (le_of_growth hg _ _ _ hrel'))
      | _ => exact hfault
    | _ => exact hfault
  · have hother (v u : Value) : Operator.onOthers op v u =
        throw (Operator.invalidBinary op v.typeName u.typeName) := by
      unfold Operator.onOthers
      split <;> simp_all
    rw [hother, hother]
    exact hfault

/-- The operators on values that are not both integers. -/
theorem sim_onMixed (op : Opcode) {v v' u u' : Value} (hv : v.Related w.ρ v')
    (hu : u.Related w.ρ u') :
    Sim G w
      (match v.asNumber?, u.asNumber? with
        | some x, some y => match Operator.onFloats op x y with
          | some z => pure (.float z)
          | none => throw (Operator.invalidBinary op v.typeName u.typeName)
        | _, _ => Operator.onOthers op v u)
      (match v'.asNumber?, u'.asNumber? with
        | some x, some y => match Operator.onFloats op x y with
          | some z => pure (.float z)
          | none => throw (Operator.invalidBinary op v'.typeName u'.typeName)
        | _, _ => Operator.onOthers op v' u') Same := by
  rw [hv.asNumber?_eq, hu.asNumber?_eq, hv.typeName_eq, hu.typeName_eq]
  split
  · split
    · exact sim_pure fun _ _ => .float _
    · exact sim_throw _
  · exact sim_onOthers op hv hu

/-- Integers are equal on both sides. All other operands are compared by what they look like. -/
theorem sim_binary (op : Opcode) {v v' u u' : Value} (hv : v.Related w.ρ v')
    (hu : u.Related w.ρ u') :
    Sim G w (Operator.binary op v u) (Operator.binary op v' u') Same := by
  have hrest := sim_onMixed (G := G) op hv hu
  cases hv with
  | int n =>
    cases hu with
    | int m =>
      refine (sim_ofExcept_eq rfl).bind fun w₁ a b _ hab => sim_pure fun w₂ _ => ?_
      exact hab ▸ .int a
    | _ => exact hrest
  | _ => exact hrest

/-- Bounds are clamped by the same length, and related elements are cut out. -/
theorem sim_slice {v v' low low' high high' : Value} (hv : v.Related w.ρ v')
    (hl : low.Related w.ρ low') (hh : high.Related w.ρ high') :
    Sim G w (slice v low high) (slice v' low' high') Same := by
  refine sim_get.bind fun w₁ h h' hg hget => ?_
  obtain ⟨hv₁, rfl, rfl⟩ := hget
  have hle : w.ρ ≤ w₁.ρ := le_of_growth hg
  refine (sim_ofExcept_eq (Heap.sliceLength_related hv₁ (hv.mono hle))).bind
    fun w₂ length length' hg₂ heq => ?_
  subst heq
  refine (sim_ofExcept_eq (sliceBounds_related hv hl hh length)).bind
    fun w₃ bounds bounds' hg₃ heq => ?_
  subst heq
  obtain ⟨l, r⟩ := bounds
  have hle' : w₁.ρ ≤ w₃.ρ := le_of_growth (Growth.trans hg₂ hg₃)
  cases hv with
  | array hrel =>
    refine sim_newArray ?_
    rw [Array.toList_extract, Array.toList_extract]
    have hitems := hv₁.contents (hle _ _ _ hrel)
    exact (List.forall₂_take _ (List.forall₂_drop _ hitems)).imp fun _ _ h => h.mono hle'
  | string s => exact sim_pure fun _ _ => .string _
  | _ => exact sim_pure fun _ _ => .undefined

/-! ## Builtins -/

theorem sim_onlyArgument {args args' : List Value} (h : Values.Related w.ρ args args') :
    Sim G w (ofExcept (CoreBuiltin.onlyArgument args)) (ofExcept (CoreBuiltin.onlyArgument args'))
      Same := by
  refine sim_ofExcept ?_
  cases h with
  | nil => exact .error _
  | cons h hs =>
    cases hs with
    | nil => exact .ok fun w₁ hg => h.mono (le_of_growth hg)
    | cons _ hs =>
      simp only [CoreBuiltin.onlyArgument, List.length_cons, hs.length_eq]
      exact .error _

theorem sim_appendTo {args args' : List Value} (h : Values.Related w.ρ args args') :
    Sim G w (CoreBuiltin.appendTo args) (CoreBuiltin.appendTo args') Same := by
  cases h with
  | nil => exact sim_throw _
  | cons h hs =>
    cases h with
    | undefined => exact sim_newArrayOf hs
    | array hrel =>
      refine sim_get.bind fun w₁ h h' hg hget => sim_newArray ?_
      obtain ⟨hv₁, rfl, rfl⟩ := hget
      rw [Array.toList_append, Array.toList_append]
      exact List.rel_append (hv₁.contents (le_of_growth hg _ _ _ hrel))
        (Values.Related.mono hs (le_of_growth hg))
    | _ => exact sim_throw _

/-- By cases of the table. No core builtin looks at the number of an object. -/
theorem sim_coreCall (b : CoreBuiltin) {args args' : List Value}
    (h : Values.Related w.ρ args args') : Sim G w (b.call args) (b.call args') Same := by
  have hone : Sim G w (ofExcept (CoreBuiltin.onlyArgument args))
      (ofExcept (CoreBuiltin.onlyArgument args')) Same := sim_onlyArgument h
  cases b with
  | append => exact sim_appendTo h
  | len =>
    refine hone.bind fun w₁ v v' _ hv => sim_get.bind fun w₂ h h' hg hget => ?_
    obtain ⟨hv₂, rfl, rfl⟩ := hget
    refine (sim_ofExcept_eq (Heap.lengthOf_related hv₂ (hv.mono (le_of_growth hg)))).bind
      fun w₃ n n' _ heq => sim_pure fun _ _ => ?_
    exact heq ▸ .int _
  | copy => exact hone.bind fun w₁ v v' _ hv => sim_deepCopy hv
  | string =>
    refine hone.bind fun w₁ v v' _ hv => sim_get.bind fun w₂ h h' hg hget => sim_pure fun _ _ => ?_
    obtain ⟨hv₂, rfl, rfl⟩ := hget
    have htext := Heap.textOf_related hv₂ (hv.mono (le_of_growth hg))
    cases hv with
    | undefined => exact .undefined
    | _ =>
      simp only [CoreBuiltin.toText, htext]
      exact .string _
  | int =>
    refine hone.bind fun w₁ v v' _ hv => sim_pure fun _ _ => ?_
    cases hv with
    | string s =>
      simp only [CoreBuiltin.toInt]
      split
      · exact .int _
      · exact .undefined
    | int n => exact .int n
    | float x => exact .int _
    | bool b => exact .int _
    | _ => exact .undefined
  | typeName =>
    refine hone.bind fun w₁ v v' _ hv => sim_pure fun _ _ => ?_
    rw [hv.typeName_eq]
    exact .string _
  | isError =>
    refine hone.bind fun w₁ v v' _ hv => sim_pure fun _ _ => ?_
    rw [hv.isError_eq]
    exact .bool _

/-! ## Hosts

What the functions of a host do is not given, only that they do not look at the numbers of objects.
How much is asked of them depends on the worlds that come up. A function may keep state on the heap:
then it is uniform in worlds where the objects that it keeps stand for each other.
-/

/-- In the worlds of `W`, the functions of the host do not tell objects apart by their indices:
given related values they do alike. -/
def UniformIn (W : World → Prop) (host : Host) : Prop :=
  ∀ (f : HostFunction) (w : World) (args args' : List Value), W w → Values.Related w.ρ args args' →
    Sim Grows w (host f args) (host f args') Same

/-- The functions of the host keep no state of their own and do not tell objects apart by their
indices: given related values they do alike. -/
def Uniform (host : Host) : Prop :=
  ∀ (f : HostFunction) (w : World) (args args' : List Value), Values.Related w.ρ args args' →
    Sim Grows w (host f args) (host f args') Same

theorem Uniform.uniformIn {host : Host} (hhost : Uniform host) (W : World → Prop) :
    UniformIn W host := fun f w args args' _ h => hhost f w args args' h

/-- A run only asks for a host that is uniform as long as the renaming has grown from the first
one, and a valid world with such a renaming has itself grown from the heap of the beginning. -/
theorem UniformIn.above {host : Host} {h : Heap}
    (hhost : UniformIn (Grows ⟨.same h, h, h⟩) host) :
    UniformIn (Above (.same h)) host := by
  intro f w args args' hle hargs w₁ hg hv
  have hgrown : Grows ⟨.same h, h, h⟩ w₁ := hv.grows_of_same (hle.trans hg.le)
  exact hhost f w₁ args args' hgrown (hargs.mono hg.le) w₁ (Growth.refl w₁) hv

/-- Builtins do alike, those of the language as well as those of the host. -/
theorem sim_call {W : World → Prop} {host : Host} (hhost : UniformIn W host) (hw : W w)
    (b : Builtin) {args args' : List Value} (h : Values.Related w.ρ args args') :
    Sim Grows w (b.call host args) (b.call host args') Same := by
  cases b with
  | core b => exact sim_coreCall b h
  | host f => exact hhost f w args args' hw h

/-- The sample functions work on their arguments only, so they are uniform in all worlds. -/
theorem uniform_sampleHost : Uniform sampleHost := by
  intro f w args args' h
  unfold sampleHost
  cases SampleHost.Entry.ofName? f.name with
  | none => exact sim_throw _
  | some e =>
    have hnew : Sim Grows w (newArray args.toArray) (newArray args'.toArray) Same :=
      sim_newArrayOf h
    cases e with
    | argc =>
      refine sim_pure fun _ _ => ?_
      rw [h.length_eq]
      exact .int _
    | list => exact hnew
    | wrap => exact hnew.bind fun w₁ v v' _ hv => sim_pure fun _ hg => .error (hv.mono hg.le)
    | first =>
      cases h with
      | nil => exact sim_pure fun _ _ => .undefined
      | cons hv _ => exact sim_pure fun _ hg => hv.mono hg.le
    | double =>
      cases h with
      | nil => exact sim_pure fun _ _ => .undefined
      | cons hv hs =>
        cases hs with
        | nil =>
          cases hv with
          | int n => exact sim_pure fun _ _ => .int _
          | _ => exact sim_pure fun _ _ => .undefined
        | cons => cases hv <;> exact sim_pure fun _ _ => .undefined
    | shout =>
      cases h with
      | nil => exact sim_throw _
      | cons hv hs =>
        cases hs with
        | nil =>
          refine sim_get.bind fun w₁ h h' hg hget => sim_pure fun _ _ => ?_
          obtain ⟨hv₁, rfl, rfl⟩ := hget
          rw [Heap.textOf_related hv₁ (hv.mono hg.le)]
          exact .string _
        | cons _ hs =>
          have hlen := hs.length_eq
          simp only [SampleHost.Entry.call, List.length_cons, hlen]
          exact sim_throw _
    | fail =>
      refine sim_get.bind fun w₁ k k' hg hget => ?_
      obtain ⟨hv₁, rfl, rfl⟩ := hget
      have htexts : args.map w₁.left.textOf = args'.map w₁.right.textOf :=
        map_eq_of_forall₂ (h.imp fun v v' hv => Heap.textOf_related hv₁ (hv.mono hg.le))
      rw [htexts]
      exact sim_throw _

end ScriptVM.HeapM
