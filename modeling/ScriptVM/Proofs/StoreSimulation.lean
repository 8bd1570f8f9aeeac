import ScriptVM.Proofs.CallsBeside
import ScriptVM.Proofs.Plan

/-!
# Contexts over related stores

A call through a context gets at the heap and at one vector of globals. In two stores that are
related as far as it gets, it is answered alike, and it has left the other vectors and the objects
that are not paired alone.
-/

namespace ScriptVM

/-! ## Related stores

Two stores are compared by what one handle gets at. The other vectors are outside of the comparison,
and are said to be left alone instead.
-/

/-- Two stores with related heaps, where a handle refers to related values. -/
structure Store.Related (g : Globals) (ρ : Renaming) (s s' : Store) : Prop where
  heap : Heap.Related ρ s.heap s'.heap
  left : g.index < s.vectors.size
  right : g.index < s'.vectors.size
  globals : Values.Related ρ (s.vector g).toList (s'.vector g).toList

/-- The stores have gone on from `s` and `s'` to `t` and `t'`, where they are related again. Only
paired objects and the vector of the handle have been written to. -/
structure Store.Advances (g : Globals) (ρ ρ₁ : Renaming) (s s' t t' : Store) : Prop where
  grows : World.Grows ⟨ρ, s.heap, s'.heap⟩ ⟨ρ₁, t.heap, t'.heap⟩
  related : Store.Related g ρ₁ t t'
  size : t.vectors.size = s.vectors.size
  others : ∀ g', g' ≠ g → t.vector g' = s.vector g'

namespace Store

variable {g : Globals} {ρ ρ₁ ρ₂ : Renaming} {s s' t t' u u' : Store}

theorem Advances.refl (h : Related g ρ s s') : Advances g ρ ρ s s' s s' where
  grows := (World.Extends.refl _).grows
  related := h
  size := rfl
  others _ _ := rfl

/-- What has been left alone twice has been left alone. -/
theorem Advances.trans (h : Advances g ρ ρ₁ s s' t t') (h' : Advances g ρ₁ ρ₂ t t' u u') :
    Advances g ρ ρ₂ s s' u u' where
  grows := h.grows.trans h'.grows
  related := h'.related
  size := h'.size.trans h.size
  others g' hne := (h'.others g' hne).trans (h.others g' hne)

end Store

/-! ## Computations of a host -/

namespace StoreM

variable {α β γ δ : Type} {g : Globals} {ρ : Renaming}

/-- Begun in stores that are related by `ρ` or more, the computations end alike, in stores that are
related by more. -/
def Sim (g : Globals) (ρ : Renaming) (x : StoreM α) (y : StoreM β)
    (Q : Renaming → α → β → Prop) : Prop :=
  ∀ (ρ₁ : Renaming) (s s' : Store), ρ ≤ ρ₁ → Store.Related g ρ₁ s s' →
    match x s, y s' with
    | .ok a t, .ok b t' => ∃ ρ₂, Store.Advances g ρ₁ ρ₂ s s' t t' ∧ Q ρ₂ a b
    | .error e t, .error e' t' => e = e' ∧ ∃ ρ₂, Store.Advances g ρ₁ ρ₂ s s' t t'
    | _, _ => False

variable {x : StoreM α} {y : StoreM β} {k : α → StoreM γ} {l : β → StoreM δ}
  {Q : Renaming → α → β → Prop} {R : Renaming → γ → δ → Prop}

/-- Both computations answer, or both fail with the same fault. -/
theorem Sim.cases {ρ₁ : Renaming} {s s' : Store} (h : Sim g ρ x y Q) (hle : ρ ≤ ρ₁)
    (hr : Store.Related g ρ₁ s s') :
    (∃ a b ρ₂ t t', x s = .ok a t ∧ y s' = .ok b t' ∧ Store.Advances g ρ₁ ρ₂ s s' t t' ∧
        Q ρ₂ a b) ∨
      ∃ e ρ₂ t t', x s = .error e t ∧ y s' = .error e t' ∧ Store.Advances g ρ₁ ρ₂ s s' t t' := by
  have h := h ρ₁ s s' hle hr
  cases hx : x s with
  | ok a t =>
    cases hy : y s' with
    | error e' t' => simp only [hx, hy] at h
    | ok b t' =>
      simp only [hx, hy] at h
      obtain ⟨ρ₂, hend⟩ := h
      exact .inl ⟨a, b, ρ₂, t, t', rfl, rfl, hend⟩
  | error e t =>
    cases hy : y s' with
    | ok b t' => simp only [hx, hy] at h
    | error e' t' =>
      simp only [hx, hy] at h
      obtain ⟨rfl, ρ₂, hend⟩ := h
      exact .inr ⟨e, ρ₂, t, t', rfl, rfl, hend⟩

/-- The second parts begin in stores that have gone on. -/
theorem Sim.bind (hx : Sim g ρ x y Q)
    (hk : ∀ ρ₁ a b, ρ ≤ ρ₁ → Q ρ₁ a b → Sim g ρ₁ (k a) (l b) R) :
    Sim g ρ (x >>= k) (y >>= l) R := by
  intro ρ₁ s s' hle hr
  simp only [Bind.bind, EStateM.bind]
  obtain ⟨a, b, ρ₂, t, t', hx, hy, hadv, hq⟩ | ⟨e, ρ₂, t, t', hx, hy, hadv⟩ := hx.cases hle hr
  · rw [hx, hy]
    dsimp only
    obtain ⟨c, d, ρ₃, u, u', hk, hl, hadv₁, hend⟩ | ⟨e, ρ₃, u, u', hk, hl, hadv₁⟩ :=
      (hk ρ₂ a b (hle.trans hadv.grows.le) hq).cases (le_refl _) hadv.related
    · rw [hk, hl]
      exact ⟨ρ₃, hadv.trans hadv₁, hend⟩
    · rw [hk, hl]
      exact ⟨rfl, ρ₃, hadv.trans hadv₁⟩
  · rw [hx, hy]
    exact ⟨rfl, ρ₂, hadv⟩

theorem sim_pure {a : α} {b : β} (h : ∀ ρ₁, ρ ≤ ρ₁ → Q ρ₁ a b) :
    Sim g ρ (pure a) (pure b) Q := fun ρ₁ _ _ hle hr => ⟨ρ₁, .refl hr, h ρ₁ hle⟩

theorem sim_fault (f : Fault) : Sim g ρ (fault f : StoreM α) (fault f : StoreM β) Q :=
  fun ρ₁ _ _ _ hr => ⟨rfl, ρ₁, .refl hr⟩

/-- What does alike on the heaps does so on the stores. -/
theorem sim_onRun {x : RunM α} {y : RunM β} {R : World → α → β → Prop}
    (hx : ∀ w : World, ρ ≤ w.ρ → HeapM.Sim World.Grows w x y R)
    (hQ : ∀ w a b, R w a b → Q w.ρ a b) : Sim g ρ (onRun x) (onRun y) Q := by
  intro ρ₁ s s' hle hr
  have hadvance {ρ₂ : Renaming} {h h' : Heap}
      (hg : World.Grows ⟨ρ₁, s.heap, s'.heap⟩ ⟨ρ₂, h, h'⟩) (hv : Heap.Related ρ₂ h h') :
      Store.Advances g ρ₁ ρ₂ s s' { s with heap := h } { s' with heap := h' } :=
    ⟨hg, ⟨hv, hr.left, hr.right, hr.globals.mono hg.le⟩, rfl, fun _ _ => rfl⟩
  rw [onRun_eq, onRun_eq]
  obtain ⟨a, b, w, hx, hy, hg, hv, hq⟩ | ⟨e, w, hx, hy, hg, hv⟩ :=
    (hx ⟨ρ₁, s.heap, s'.heap⟩ hle).cases (World.Extends.refl _).grows hr.heap
  · dsimp only at hx hy ⊢
    rw [hx, hy]
    exact ⟨w.ρ, hadvance hg hv, hQ _ _ _ hq⟩
  · dsimp only at hx hy ⊢
    rw [hx, hy]
    exact ⟨rfl, w.ρ, hadvance hg hv⟩

/-- What does alike on related heaps does alike on the stores. -/
theorem sim_onHeap {x : HeapM α} {y : HeapM β} {R : World → α → β → Prop}
    (hx : ∀ w : World, ρ ≤ w.ρ → HeapM.Sim World.Grows w x y R)
    (hQ : ∀ w a b, R w a b → Q w.ρ a b) : Sim g ρ (onHeap x) (onHeap y) Q := by
  refine sim_onRun (fun w hle w₁ hg hv => ?_) hQ
  unfold RunM.onHeap
  obtain ⟨a, b, w₂, hx, hy, hend⟩ | ⟨e, w₂, hx, hy, hend⟩ := (hx w hle).cases hg hv
  · rw [hx, hy]
    exact ⟨w₂.ρ, hend⟩
  · rw [hx, hy]
    exact ⟨rfl, w₂.ρ, hend⟩

theorem sim_onHeapValue {x y : HeapM Value}
    (hx : ∀ w : World, ρ ≤ w.ρ → HeapM.Sim World.Grows w x y HeapM.Same) :
    Sim g ρ (onHeap x) (onHeap y) Value.Related := sim_onHeap hx fun _ _ _ h => h

/-! ## Globals -/

abbrev Vectors (ρ : Renaming) (vs vs' : Array Value) : Prop :=
  Values.Related ρ vs.toList vs'.toList

/-- A snapshot is the vector of the handle, which is related on both sides. -/
theorem sim_snapshot : Sim g ρ g.snapshot g.snapshot Vectors :=
  fun ρ₁ _ _ _ hr => ⟨ρ₁, .refl hr, hr.globals⟩

/-- The vector of the handle is overwritten with related values. -/
theorem sim_replace {vs vs' : Array Value} (h : Vectors ρ vs vs') :
    Sim g ρ (g.replace vs) (g.replace vs') fun _ _ _ => True := by
  intro ρ₁ s s' hle hr
  have hothers (g' : Globals) (hne : g' ≠ g) :
      Store.vector ⟨s.heap, s.vectors.setIfInBounds g.index vs⟩ g' = s.vector g' :=
    Store.vector_overwritten_of_ne s.heap vs hne
  refine ⟨ρ₁, ⟨(World.Extends.refl _).grows, ⟨hr.heap, ?_, ?_, ?_⟩, ?_, hothers⟩, trivial⟩
  · simpa using hr.left
  · simpa using hr.right
  · rw [Store.vector_overwritten _ _ hr.left, Store.vector_overwritten _ _ hr.right]
    exact h.mono hle
  · simp

end StoreM

/-! ## Reading from globals -/

theorem Key.related {ρ : Renaming} (k : Key) : k.toValue.Related ρ k.toValue := by
  cases k with
  | index n => exact .int n
  | field name => exact .string name

/-- Each key leads from related values to related values, or fails on both sides. -/
theorem Heap.follow_related {ρ : Renaming} {h h' : Heap} (hr : Heap.Related ρ h h') {v v' : Value}
    (hv : v.Related ρ v') (path : List Key) :
    Alike (Value.Related ρ) (h.follow v path) (h'.follow v' path) := by
  induction path generalizing v v' with
  | nil => exact .ok hv
  | cons k path ih =>
    have hindex := index_related hr hv k.related
    unfold follow
    generalize h.index v k.toValue = r at hindex ⊢
    generalize h'.index v' k.toValue = r' at hindex ⊢
    cases hindex with
    | ok hv => exact ih hv
    | error e => exact .error e

theorem Store.read_related {g : Globals} {ρ : Renaming} {s s' : Store} (hr : Store.Related g ρ s s')
    (spot : Spot) : (s.read g spot).Related ρ (s'.read g spot) := by
  have hslot := Heap.getElem?_related hr.globals spot.slot
  simp only [Array.getElem?_toList] at hslot
  have hfollow := Heap.follow_related hr.heap (Heap.getD_related hslot) spot.path
  unfold read
  generalize s.heap.follow _ spot.path = r at hfollow ⊢
  generalize s'.heap.follow _ spot.path = r' at hfollow ⊢
  cases hfollow with
  | ok hv => exact hv
  | error e => exact .undefined

/-! ## Arguments and callees

What a host calls, and with what, is put together from values that it has read and from new
containers. So it is related on both sides.
-/

theorem Heap.ofList_related {ρ : Renaming} {fs gs : List (String × Value)}
    (h : Fields.Related ρ fs gs) :
    Fields.Related ρ (FieldMap.ofList fs).entries (FieldMap.ofList gs).entries := by
  have hfold {m m' : FieldMap Value} (hm : Fields.Related ρ m.entries m'.entries) :
      Fields.Related ρ (fs.foldl (fun m p => m.insert p.1 p.2) m).entries
        (gs.foldl (fun m p => m.insert p.1 p.2) m').entries := by
    induction h generalizing m m' with
    | nil => exact hm
    | @cons p q _ _ hp _ ih =>
      obtain ⟨k, v⟩ := p
      obtain ⟨l, w⟩ := q
      obtain ⟨rfl, hv⟩ : k = l ∧ v.Related ρ w := hp
      exact ih (insertEntry_related hm k hv)
  exact hfold .nil

namespace Part

open HeapM

variable {w : World} {made made' : List Value}

theorem pick_related {ρ : Renaming} (h : Values.Related ρ made made') (i : Nat) :
    (pick made i).Related ρ (pick made' i) := Heap.getD_related (Heap.getElem?_related h i)

theorem pickAll_related {ρ : Renaming} (h : Values.Related ρ made made') (is : List Nat) :
    Values.Related ρ (is.map (pick made)) (is.map (pick made')) :=
  List.forall₂_map_left_iff.2 (List.forall₂_map_right_iff.2 (List.forall₂_same.2 fun i _ =>
    pick_related h i))

/-- A part is a plain value, or a new container of values that have been made. -/
theorem sim_make (p : Part) (h : Values.Related w.ρ made made') :
    HeapM.Sim World.Grows w (p.make made) (p.make made') Same := by
  have hlater {w₁ : World} (hg : w.Grows w₁) (i : Nat) :
      (pick made i).Related w₁.ρ (pick made' i) := pick_related (h.mono hg.le) i
  cases p with
  | undefined => exact sim_pure fun _ _ => .undefined
  | bool b => exact sim_pure fun _ _ => .bool b
  | int n => exact sim_pure fun _ _ => .int n
  | float x => exact sim_pure fun _ _ => .float x
  | string s => exact sim_pure fun _ _ => .string s
  | array items => exact sim_newArrayOf (pickAll_related h items)
  | map fields =>
    refine sim_newMap (Heap.ofList_related ?_)
    refine List.forall₂_map_left_iff.2 (List.forall₂_map_right_iff.2 (List.forall₂_same.2 ?_))
    exact fun p _ => ⟨rfl, pick_related h p.2⟩
  | error payload => exact sim_pure fun _ hg => .error (hlater hg payload)
  | write container key item =>
    refine (sim_assign (pick_related h container) (pick_related h key)
      (pick_related h item)).bind fun _ _ _ _ _ => sim_pure fun _ _ => .undefined

/-- Parts that come later may be made of earlier ones. -/
theorem sim_makeAll (parts : List Part) (h : Values.Related w.ρ made made') :
    HeapM.Sim World.Grows w (makeAll made parts) (makeAll made' parts) fun w₁ =>
      Values.Related w₁.ρ := by
  induction parts generalizing w made made' with
  | nil => exact sim_pure fun _ hg => h.mono hg.le
  | cons p parts ih =>
    refine (sim_make p h).bind fun w₁ v v' hg hv => ih ?_
    exact List.rel_append (h.mono hg.le) (.cons hv .nil)

end Part

/-- A callee that the host knows by itself is paired. -/
def Callee.Known (ρ : Renaming) : Callee → Prop
  | known f => (Value.function f).Related ρ (.function f)
  | held _ => True

theorem Callee.Known.mono {ρ ρ' : Renaming} {c : Callee} (hc : c.Known ρ) (hle : ρ ≤ ρ') :
    c.Known ρ' := by
  cases c with
  | known f => exact Value.Related.mono hc hle
  | held i => trivial

/-- The callee is one that both sides know, or has been read on both. -/
theorem Callee.value_related {ρ : Renaming} {c : Callee} (hc : c.Known ρ) {held held' : List Value}
    (h : Values.Related ρ held held') : (c.value held).Related ρ (c.value held') := by
  cases c with
  | known f => exact hc
  | held i => exact Part.pick_related h i

/-! ## Calls -/

structure Answer.Related (ρ : Renaming) (a a' : Answer) : Prop where
  result : a.result.Related ρ a'.result
  globals : Option.Rel (StoreM.Vectors ρ) a.globals a'.globals

namespace Context

open StoreM

variable {host : Host} {ρ : Renaming}

/-- A compiled function works on a snapshot, and anything else on the heap alone. -/
theorem sim_callWithGlobals (hhost : HeapM.Uniform host) (steps : Nat) {c : Context}
    (hc : Vectors ρ c.constants c.constants) {callee callee' : Value} {args args' : List Value}
    (hcallee : callee.Related ρ callee') (hargs : Values.Related ρ args args') :
    Sim c.globals ρ (c.callWithGlobals host steps callee args)
      (c.callWithGlobals host steps callee' args') fun ρ r r' =>
        r.1.Related ρ r'.1 ∧ Vectors ρ r.2 r'.2 := by
  cases hcallee with
  | function hid hf =>
    refine sim_snapshot.bind fun ρ₁ vs vs' hle hvs => ?_
    have hcalled (w : World) (hle₁ : ρ₁ ≤ w.ρ) :=
      HeapM.sim_invoke hhost steps c.limits ((Value.Related.function hid hf).mono (hle.trans hle₁))
        (hc.mono (hle.trans hle₁)) (hvs.mono hle₁) (hargs.mono (hle.trans hle₁))
    have hrun := sim_onRun (g := c.globals) (Q := fun ρ r r' => r.1.Related ρ r'.1 ∧
      Vectors ρ r.2 r'.2) hcalled fun _ _ _ h => h
    refine hrun.bind fun ρ₂ r r' _ hr => ?_
    refine (sim_replace hr.2).bind fun ρ₃ _ _ hle₂ _ => sim_pure fun ρ₄ hle₃ => ?_
    exact ⟨hr.1.mono (hle₂.trans hle₃), hr.2.mono (hle₂.trans hle₃)⟩
  | builtin b =>
    have hcalled (w : World) (hle : ρ ≤ w.ρ) :=
      HeapM.sim_call (hhost.uniformIn fun _ => True) trivial b (hargs.mono hle)
    refine (sim_onHeapValue hcalled).bind fun ρ₁ v v' _ hv => ?_
    refine sim_snapshot.bind fun ρ₂ vs vs' hle₁ hvs => sim_pure fun ρ₃ hle₂ => ?_
    exact ⟨hv.mono (hle₁.trans hle₂), hvs.mono hle₂⟩
  | _ => exact sim_fault _

/-- The same, where the host does not ask for the globals. -/
theorem sim_call (hhost : HeapM.Uniform host) (steps : Nat) {c : Context}
    (hc : Vectors ρ c.constants c.constants) {callee callee' : Value} {args args' : List Value}
    (hcallee : callee.Related ρ callee') (hargs : Values.Related ρ args args') :
    Sim c.globals ρ (c.call host steps callee args) (c.call host steps callee' args')
      Value.Related :=
  (sim_callWithGlobals hhost steps hc hcallee hargs).bind fun _ _ _ _ hr =>
    sim_pure fun _ hle => hr.1.mono hle

/-- A call of a plan is answered alike. -/
theorem sim_perform (hhost : HeapM.Uniform host) {c : Context}
    (hc : Vectors ρ c.constants c.constants) {call : Call} (hcallee : call.callee.Known ρ)
    {held held' : List Value} (hheld : Values.Related ρ held held') :
    Sim c.globals ρ (call.perform host c held) (call.perform host c held') Answer.Related := by
  have hmake : Sim c.globals ρ (onHeap call.makeArgs) (onHeap call.makeArgs) Values.Related := by
    refine sim_onHeap (R := fun w => Values.Related w.ρ) (fun w _ => ?_) fun _ _ _ h => h
    refine (Part.sim_makeAll call.parts .nil).bind fun w₁ made made' _ hmade => ?_
    exact HeapM.sim_pure fun w₂ hg => Part.pickAll_related (hmade.mono hg.le) call.args
  refine hmake.bind fun ρ₁ args args' hle hargs => ?_
  have hv := (Callee.value_related hcallee hheld).mono hle
  have hc₁ := hc.mono hle
  dsimp only
  split
  · refine (sim_callWithGlobals hhost call.steps hc₁ hv hargs).bind fun ρ₂ r r' _ hr =>
      sim_pure fun ρ₃ hle₁ => ?_
    exact ⟨hr.1.mono hle₁, .some (hr.2.mono hle₁)⟩
  · refine (sim_call hhost call.steps hc₁ hv hargs).bind fun ρ₂ v v' _ hv =>
      sim_pure fun ρ₃ hle₁ => ?_
    exact ⟨hv.mono hle₁, .none⟩

end Context
end ScriptVM
