import ScriptVM.Proofs.Isolation
import ScriptVM.Proofs.PromotedRun
import ScriptVM.Proofs.Written

/-!
# Units that are run again

The constants of a unit may refer to containers, and instructions are given these containers
themselves. A unit is therefore as it was, after any runs and calls, if no instruction has written
to an object that can be got at from it. Then it can be run again, and from globals of equal
structure it ends as it did before. If an instruction does write to a constant, a later run may end
otherwise.
-/

namespace ScriptVM

/-! ## What can be got at from values -/

/-- The objects that a value itself refers to. -/
inductive Value.Refers : Value → Objects where
  | array (ref : ArrayRef) : Refers (.array ref) .array ref.index
  | map (ref : MapRef) : Refers (.map ref) .map ref.index
  | cell {f : FunctionObject} {c : CellRef} (hc : c ∈ f.function.cells) :
    Refers (.function f) .cell c.index
  | identity (f : FunctionObject) : Refers (.function f) .identity f.id

/-- The objects that can be got at from some values. -/
def Heap.held (h : Heap) (vs : List Value) : Objects :=
  fun k i => ∃ v ∈ vs, ∃ w, h.Reaches v w ∧ w.Refers k i

/-- All that can be got at from the values is there. -/
def Heap.Bears (h : Heap) (vs : List Value) : Prop := ∀ k i, h.held vs k i → i < h.count k

section

variable {h h' : Heap} {u v w : Value} {vs : List Value} {K : Objects} {ρ σ : Renaming}

/-- What is reached from what is reached is reached. -/
theorem Heap.Reaches.trans (hv : h.Reaches u v) (hw : h.Reaches v w) : h.Reaches u w := by
  induction hv with
  | refl => exact hw
  | element hmem _ ih => exact .element hmem (ih hw)
  | field hmem _ ih => exact .field hmem (ih hw)
  | payload _ ih => exact .payload (ih hw)
  | cell hc _ ih => exact .cell hc (ih hw)

/-- What can be got at from a value can still be, if the objects on the way hold what they held. -/
theorem Heap.Reaches.of_same (hw : h.Reaches v w)
    (hv : ∀ w, h.Reaches v w → ∀ k i, w.Refers k i → h.Same h' k i) : h'.Reaches v w := by
  induction hw with
  | refl v => exact .refl v
  | @element ref x _ hmem _ ih =>
    have hitems : h'.arrayAt ref = h.arrayAt ref := hv _ (.refl _) _ _ (.array ref)
    have hmem' : x ∈ h'.arrayAt ref := by
      rw [hitems]
      exact hmem
    exact .element hmem' (ih fun w hw => hv w (.element hmem hw))
  | @field ref key x _ hmem _ ih =>
    have hfields : h'.mapAt ref = h.mapAt ref := hv _ (.refl _) _ _ (.map ref)
    have hmem' : (key, x) ∈ (h'.mapAt ref).entries := by
      rw [hfields]
      exact hmem
    exact .field hmem' (ih fun w hw => hv w (.field hmem hw))
  | payload _ ih => exact .payload (ih fun w hw => hv w (.payload hw))
  | @cell f c _ hc _ ih =>
    have hcontents : h'.cellAt c = h.cellAt c := hv _ (.refl _) _ _ (.cell hc)
    refine .cell hc ?_
    rw [hcontents]
    exact ih fun w hw => hv w (.cell hc hw)

/-- Nothing more can be got at then. -/
theorem Heap.Reaches.of_same_before (hw : h'.Reaches v w)
    (hv : ∀ w, h.Reaches v w → ∀ k i, w.Refers k i → h.Same h' k i) : h.Reaches v w := by
  induction hw with
  | refl v => exact .refl v
  | @element ref _ _ hmem _ ih =>
    have hitems : h'.arrayAt ref = h.arrayAt ref := hv _ (.refl _) _ _ (.array ref)
    rw [hitems] at hmem
    exact .element hmem (ih fun w hw => hv w (.element hmem hw))
  | @field ref _ _ _ hmem _ ih =>
    have hfields : h'.mapAt ref = h.mapAt ref := hv _ (.refl _) _ _ (.map ref)
    rw [hfields] at hmem
    exact .field hmem (ih fun w hw => hv w (.field hmem hw))
  | payload _ ih => exact .payload (ih fun w hw => hv w (.payload hw))
  | @cell f c _ hc _ ih =>
    have hcontents : h'.cellAt c = h.cellAt c := hv _ (.refl _) _ _ (.cell hc)
    rw [hcontents] at ih
    exact .cell hc (ih fun w hw => hv w (.cell hc hw))

/-! ## Objects that stand for themselves

The objects of a unit are the same objects in both runs, and those of the globals may be others. So
the renaming has two parts, which must not contradict each other.
-/

/-- The objects of `K`, each for itself. -/
def Renaming.fixing (K : Objects) : Renaming where
  rel k a b := a = b ∧ K k a
  unique := by
    rintro k a b a' b' ⟨rfl, -⟩ ⟨rfl, -⟩
    exact Iff.rfl

/-- Two renamings together, if no object stands for two. -/
def Renaming.join (ρ σ : Renaming)
    (h : ∀ {k a b a' b'}, ρ.rel k a b → σ.rel k a' b' → (a = a' ↔ b = b')) : Renaming where
  rel k a b := ρ.rel k a b ∨ σ.rel k a b
  unique := by
    rintro k a b a' b' (hrel | hrel) (hrel' | hrel')
    · exact ρ.unique hrel hrel'
    · exact h hrel hrel'
    · rw [eq_comm, h hrel' hrel, eq_comm]
    · exact σ.unique hrel hrel'

theorem Renaming.le_join (hc) : ρ ≤ ρ.join σ hc := fun _ _ _ => .inl

theorem Renaming.le_join_right (hc) : σ ≤ ρ.join σ hc := fun _ _ _ => .inr

/-- A pair of either renaming matches by that renaming, and so by the joined one. -/
theorem Heap.Related.join (hr : Related ρ h h') (hs : Related σ h h') (hc) :
    Related (ρ.join σ hc) h h' := by
  constructor
  · rintro k a b (hrel | hrel)
    · exact hr.bounds hrel
    · exact hs.bounds hrel
  · rintro k a b (hrel | hrel)
    · exact (hr.contents hrel).mono (Renaming.le_join hc)
    · exact (hs.contents hrel).mono (Renaming.le_join_right hc)

/-- A value stands for itself if all objects that it leads to do. -/
theorem Heap.Reaches.related_self
    (hv : ∀ w, h.Reaches v w → ∀ k i, w.Refers k i → ρ.rel k i i) : v.Related ρ v := by
  induction v with
  | array ref => exact .array (hv _ (.refl _) _ _ (.array ref))
  | map ref => exact .map (hv _ (.refl _) _ _ (.map ref))
  | error payload ih => exact .error (ih fun w hw => hv w (.payload hw))
  | function f =>
    have hcells : List.Forall₂ (fun c d => ρ.rel .cell c.index d.index) f.function.cells
        f.function.cells := List.forall₂_same.2 fun c hc => hv _ (.refl _) _ _ (.cell hc)
    exact .function (hv _ (.refl _) _ _ (.identity f)) ⟨rfl, hcells⟩
  | undefined => exact .undefined
  | bool b => exact .bool b
  | int n => exact .int n
  | float x => exact .float x
  | string s => exact .string s
  | builtin b => exact .builtin b

/-- The values as such. -/
theorem Heap.related_held (h : Heap) (vs : List Value) :
    Values.Related (.fixing (h.held vs)) vs vs := by
  apply List.forall₂_same.2
  intro v hv
  exact Reaches.related_self fun w hw k i hi => ⟨rfl, v, hv, w, hw, hi⟩

/-- What can be got at from the values has the structure that it had, if it is kept. -/
theorem Heap.Kept.related (hk : h.Kept (h.held vs) h') (hvs : h.Bears vs) :
    Heap.Related (.fixing (h.held vs)) h h' := by
  constructor
  · rintro k a b ⟨rfl, ha⟩
    have hlt := hvs k a ha
    exact ⟨hlt, Nat.lt_of_lt_of_le hlt (hk.count k)⟩
  · rintro k a b ⟨rfl, ha⟩
    have hsame := hk.same k a ha (hvs k a ha)
    obtain ⟨v, hv, w, hw, href⟩ := ha
    have hself {x : Value} (hx : h.Reaches w x) : x.Related (.fixing (h.held vs)) x :=
      Reaches.related_self fun y hy k i hi => ⟨rfl, v, hv, y, hw.trans (hx.trans hy), hi⟩
    suffices hcontents : Matches (.fixing (h.held vs)) h h k a a from
      hcontents.of_same (.refl ..) hsame
    cases href with
    | array ref =>
      apply List.forall₂_same.2
      intro x hx
      exact hself (.element (Array.mem_toList_iff.1 hx) (.refl x))
    | map ref =>
      apply List.forall₂_same.2
      rintro ⟨key, x⟩ hx
      exact ⟨rfl, hself (.field hx (.refl x))⟩
    | cell hc => exact hself (.cell hc (.refl _))
    | identity f => trivial

end

/-! ## Runs on related heaps -/

section

variable {host : Host} {w : World}

/-- Top-level functions that are related begin alike. -/
theorem Exec.sim_enterMain {ρ : Renaming} {f f' : Function} (hf : f.Related ρ f') :
    Sim (beside w) ρ ((beside w).Above 0 0) (enterMain f) (enterMain f') (fun _ _ _ => True)
      fun _ => True := by
  have hlocals : f'.numLocals = f.numLocals := by rw [hf.eq]
  unfold enterMain
  rw [hlocals]
  refine (sim_pushUndefined stable_beside f.numLocals).bind fun ρ₁ _ _ hle _ => ?_
  have hframe : (Frame.start f 0).Related ρ₁ (.start f' 0) := ⟨hf.mono hle, rfl, rfl⟩
  exact sim_pushFrame hframe .nil fun _ _ => trivial

/-- Runs of units with related functions and constants, from related globals, end alike. -/
theorem HeapM.sim_run (hhost : Uniform host) (steps : Nat) {u u' : CompiledUnit}
    {globals globals' : Array Value} (limits : Limits) (hmain : u.main.Related w.ρ u'.main)
    (hpool : Values.Related w.ρ u.constants.toList u'.constants.toList)
    (hglobals : Values.Related w.ρ globals.toList globals'.toList) :
    Sim World.Grows w (u.run host steps globals limits) (u'.run host steps globals' limits)
      fun w₁ r r' => r.1.Related w₁.ρ r'.1 ∧ Values.Related w₁.ρ r.2.toList r'.2.toList := by
  intro w₁ hg hv
  have hstart := related_idle limits hv (hpool.mono hg.le) (hglobals.mono hg.le)
  rw [CompiledUnit.run_eq, CompiledUnit.run_eq, Machine.ofUnit, Machine.ofUnit]
  obtain ⟨_, _, ρ, m, m', hx, hy, -, hr, -⟩ | ⟨e, ρ, m, m', hx, hy, -⟩ :=
    (Exec.sim_enterMain (w := w₁) (hmain.mono hg.le)).cases (le_refl _) hstart
      ⟨fun _ hi => hi.elim, rfl, Nat.le_refl _⟩
  · rw [hx, hy]
    dsimp only
    obtain ⟨r, r', w₂, hx, hy, hend⟩ | ⟨s, w₂, hx, hy, hend⟩ :=
      finish_beside hhost hr steps w₁.left w₁.right
    · rw [hx, hy]
      exact ⟨w₂.ρ, hend⟩
    · rw [hx, hy]
      exact ⟨rfl, w₂.ρ, hend⟩
  · rw [hx, hy]
    exact ⟨rfl, w₁.ρ, (World.Extends.refl w₁).grows, hv⟩

/-- Two runs end alike, up to a renaming that goes beyond `ρ` for new objects only: with related
results and globals, or stopped by the same. -/
inductive RunM.EndsAlike (ρ : Renaming) :
    EStateM.Result Stop Heap (Value × Array Value) →
      EStateM.Result Stop Heap (Value × Array Value) → Prop where
  | ok {ρ' : Renaming} {v v' : Value} {globals globals' : Array Value} {h h' : Heap}
    (hle : ρ ≤ ρ') (hv : v.Related ρ' v')
    (hglobals : Values.Related ρ' globals.toList globals'.toList) (hh : Heap.Related ρ' h h') :
    EndsAlike ρ (.ok (v, globals) h) (.ok (v', globals') h')
  | error {ρ' : Renaming} {s : Stop} {h h' : Heap} (hle : ρ ≤ ρ') (hh : Heap.Related ρ' h h') :
    EndsAlike ρ (.error s h) (.error s h')

/-- What is alike from a world on ends alike. -/
theorem RunM.EndsAlike.of_sim {ρ : Renaming} {x y : RunM (Value × Array Value)} (hle : ρ ≤ w.ρ)
    (hw : w.Valid)
    (h : HeapM.Sim World.Grows w x y fun w₁ r r' =>
      r.1.Related w₁.ρ r'.1 ∧ Values.Related w₁.ρ r.2.toList r'.2.toList) :
    EndsAlike ρ (x w.left) (y w.right) := by
  obtain ⟨r, r', w₁, hx, hy, hg, hh, hv, hglobals⟩ | ⟨s, w₁, hx, hy, hg, hh⟩ :=
    h.cases (World.Extends.refl w).grows hw
  · rw [hx, hy]
    exact .ok (hle.trans hg.le) hv hglobals hh
  · rw [hx, hy]
    exact .error (hle.trans hg.le) hh

end

/-! ## Units in use

What has been kept of a unit while it was in use is all that a later run sees of it. New objects and
identities do not matter, since they are told apart up to renaming.
-/

namespace CompiledUnit

/-- What a unit consists of: its top-level function, as an object with the unit's identity, and its
constants. -/
def parts (u : CompiledUnit) : List Value := .function ⟨u.id, u.main⟩ :: u.constants.toList

/-- What can become of a heap while a unit is in use: by runs of the unit and calls with its
constants, whether they succeed or fault, and by what the host does in between, none of which writes
to an object of `K`. -/
inductive Used (host : Host) (u : CompiledUnit) (K : Objects) (h : Heap) : Heap → Prop where
  | unused : Used host u K h h
  | launched {h' : Heap} (before : Used host u K h h') (l : Launch) (globals : Array Value)
    (limits : Limits) (steps : Nat) (hl : l.Spares host K (.idle u.constants globals limits h')) :
    Used host u K h (l.outcome host steps (.idle u.constants globals limits h')).heap
  | between {h' h'' : Heap} (before : Used host u K h h') (hk : h'.Kept K h'') :
    Used host u K h h''

/-- From each part of the unit the same can be got at as before, and what can be got at from it
holds what it held. -/
structure Unchanged (u : CompiledUnit) (h h' : Heap) : Prop where
  reaches : ∀ v ∈ u.parts, ∀ w, h'.Reaches v w ↔ h.Reaches v w
  same : ∀ k i, h.held u.parts k i → h.Same h' k i

variable {host : Host} {u : CompiledUnit} {h h' : Heap}

/-- Each thing that is done keeps the objects, and the host's functions do too. -/
theorem Used.kept {K : Objects} (hhost : host.Spares K) (hused : u.Used host K h h') :
    h.Kept K h' := by
  induction hused with
  | unused => exact .refl h
  | launched _ l globals limits steps hl ih => exact ih.trans (hl.outcome hhost steps)
  | between _ hk ih => exact ih.trans hk

/-- What can be got at is kept, so the ways to it are too. -/
theorem unchanged_of_kept (hu : h.Bears u.parts) (hk : h.Kept (h.held u.parts) h') :
    u.Unchanged h h' := by
  have hsame (k : Kind) (i : Nat) (hi : h.held u.parts k i) : h.Same h' k i :=
    hk.same k i hi (hu k i hi)
  refine ⟨?_, hsame⟩
  intro v hv w
  have hon {x : Value} (hx : h.Reaches v x) (k : Kind) (i : Nat) (hi : x.Refers k i) :
      h.Same h' k i := hsame k i ⟨v, hv, x, hx, hi⟩
  exact ⟨fun hw => hw.of_same_before fun _ => hon, fun hw => hw.of_same fun _ => hon⟩

/-- If a unit has been kept, it ends as it did, from globals of equal structure. Objects of the unit
that are in the globals have to be the same in both. -/
theorem endsAlike_of_kept (hhost : HeapM.Uniform host) (hu : h.Bears u.parts)
    (hk : h.Kept (h.held u.parts) h') {ρ : Renaming} {globals globals' : Array Value}
    (hr : Heap.Related ρ h h') (hglobals : Values.Related ρ globals.toList globals'.toList)
    (hown : ∀ {k a b}, ρ.rel k a b → h.held u.parts k a ∨ h.held u.parts k b → a = b)
    (limits : Limits) (steps : Nat) :
    RunM.EndsAlike ρ (u.run host steps globals limits h)
      (u.run host steps globals' limits h') := by
  have hcompatible {k : Kind} {a b a' b' : Nat} (hrel : ρ.rel k a b)
      (hfix : (Renaming.fixing (h.held u.parts)).rel k a' b') : a = a' ↔ b = b' := by
    obtain ⟨rfl, ha'⟩ := hfix
    constructor
    · rintro rfl
      exact (hown hrel (.inl ha')).symm
    · rintro rfl
      exact hown hrel (.inr ha')
  let w : World := ⟨ρ.join (.fixing (h.held u.parts)) hcompatible, h, h'⟩
  have hvalid : w.Valid := hr.join (hk.related hu) hcompatible
  have hparts : Values.Related w.ρ u.parts u.parts :=
    (h.related_held u.parts).mono (Renaming.le_join_right hcompatible)
  obtain ⟨hmain, hpool⟩ := List.forall₂_cons.1 hparts
  have hfunction : u.main.Related w.ρ u.main := by
    cases hmain with
    | function _ hf => exact hf
  have hle : ρ ≤ w.ρ := Renaming.le_join hcompatible
  exact .of_sim hle hvalid (HeapM.sim_run hhost steps limits hfunction hpool (hglobals.mono hle))

/-- Running a unit changes nothing of it, as long as no instruction writes to an object that can be
got at from it and the functions of the host leave these objects as they are: after any runs and
calls, each of its parts has the structure that it had, at every depth. A run then ends as one
before all of these, if the globals of both are of equal structure. -/
theorem unchanged_and_repeatable (hhost : HeapM.Uniform host)
    (hspares : host.Spares (h.held u.parts)) (hu : h.Bears u.parts)
    (hused : u.Used host (h.held u.parts) h h') :
    u.Unchanged h h' ∧
    ∀ (ρ : Renaming) (globals globals' : Array Value), Heap.Related ρ h h' →
      Values.Related ρ globals.toList globals'.toList →
      (∀ {k a b}, ρ.rel k a b → h.held u.parts k a ∨ h.held u.parts k b → a = b) →
      ∀ (limits : Limits) (steps : Nat),
        RunM.EndsAlike ρ (u.run host steps globals limits h)
          (u.run host steps globals' limits h') := by
  have hk := hused.kept hspares
  refine ⟨unchanged_of_kept hu hk, ?_⟩
  intro ρ globals globals' hr hglobals hown limits steps
  exact endsAlike_of_kept hhost hu hk hr hglobals hown limits steps

/-- Nothing is asked of the instructions if there is nothing in a unit that could be written to. -/
theorem kept_of_immutable (hhost : host.OnlyAdds)
    (himm : ∀ v ∈ u.parts, ∀ w, h.Reaches v w → w.Immutable) (hused : u.Used host .none h h') :
    h.Kept (h.held u.parts) h' := by
  apply (hused.kept hhost.spares).of_identities
  rintro k i ⟨v, hv, w, hw, href⟩
  have himm := himm v hv w hw
  cases href with
  | array ref => exact himm.elim
  | map ref => exact himm.elim
  | cell hc =>
    rw [himm] at hc
    cases hc
  | identity f => rfl

end CompiledUnit

/-! ### A constant that is written to

The unit reads the element of its constant array, and then overwrites it. When it is run again, it
reads what the first run has written.
-/

def overwritesConstant : CompiledUnit where
  id := 0
  main := .ofCode #[Opcode.constant.byte, 0, 0, Opcode.constant.byte, 0, 1, Opcode.index.byte,
    Opcode.constant.byte, 0, 0, Opcode.constant.byte, 0, 1, Opcode.constant.byte, 0, 2,
    Opcode.setIndex.byte, Opcode.halt.byte] 0 0
  constants := #[.array ⟨0⟩, .int 0, .int 9]

/-- The second run reads the nine that the first has written. -/
theorem run_overwritesConstant :
    overwritesConstant.run sampleHost 8 #[] {} { arrays := #[#[.int 1]], identities := 1 } =
      .ok (.int 1, #[]) { arrays := #[#[.int 9]], identities := 1 } ∧
    overwritesConstant.run sampleHost 8 #[] {} { arrays := #[#[.int 9]], identities := 1 } =
      .ok (.int 9, #[]) { arrays := #[#[.int 9]], identities := 1 } := by
  decide +kernel

/-! ### A constant that is only read

The unit overwrites the element of an array in its globals, and then reads its constant array. For
its second run the host makes a new array.
-/

def readsConstant : CompiledUnit where
  id := 0
  main := .ofCode #[Opcode.getGlobal.byte, 0, 0, Opcode.constant.byte, 0, 1,
    Opcode.constant.byte, 0, 2, Opcode.setIndex.byte, Opcode.constant.byte, 0, 0,
    Opcode.constant.byte, 0, 1, Opcode.index.byte, Opcode.halt.byte] 0 0
  constants := #[.array ⟨0⟩, .int 0, .int 9]

/-- The heap with the constant array and the one for the first run. -/
def heapForFirst : Heap := { arrays := #[#[.int 1], #[.int 5]], identities := 1 }

def heapBetween : Heap := { arrays := #[#[.int 1], #[.int 9]], identities := 1 }

def heapForSecond : Heap := (heapBetween.addArray #[.int 5]).2

def arraysOfRuns : Renaming where
  rel k a b := k = .array ∧ a = 1 ∧ b = 2
  unique := by
    rintro k a b a' b' ⟨-, rfl, rfl⟩ ⟨-, rfl, rfl⟩
    simp

/-- Nothing but the constant array and the unit's identity can be got at from the unit. -/
theorem held_readsConstant {k : Kind} {i : Nat}
    (hi : heapForFirst.held readsConstant.parts k i) : (k = .array ∨ k = .identity) ∧ i = 0 := by
  obtain ⟨v, hv, w, hw, href⟩ := hi
  have hint {n : Int64} {w : Value} (hw : heapForFirst.Reaches (.int n) w) : ¬ w.Refers k i := by
    cases hw
    rintro ⟨⟩
  simp only [CompiledUnit.parts, readsConstant, List.mem_cons, List.not_mem_nil, or_false] at hv
  rcases hv with rfl | rfl | rfl | rfl
  · cases hw with
    | refl =>
      cases href with
      | cell hc => cases hc
      | identity f => exact ⟨.inr rfl, rfl⟩
    | cell hc => cases hc
  · cases hw with
    | refl =>
      cases href
      exact ⟨.inl rfl, rfl⟩
    | @element _ x _ hx hw =>
      have hx : x ∈ [Value.int 1] := Array.mem_toList_iff.2 hx
      obtain rfl := List.mem_singleton.1 hx
      exact absurd href (hint hw)
  · exact absurd href (hint hw)
  · exact absurd href (hint hw)

def startOfReadsConstant : Machine :=
  { Machine.idle readsConstant.constants #[.array ⟨1⟩] {} heapForFirst with
    frames := [.start readsConstant.main 0] }

/-- The first run writes to the array that it has been given, and to no other object. -/
theorem spares_readsConstant {m : Machine} (h : startOfReadsConstant.Reaches sampleHost m) :
    m.Spares (heapForFirst.held readsConstant.parts) := by
  have hover : startOfReadsConstant.isOver sampleHost 8 = true := by decide +kernel
  have hall : ∀ m ∈ startOfReadsConstant.trail sampleHost 8,
      m.target? = none ∨ m.target? = some (.array, 1) := by decide +kernel
  intro k i hi hheld
  rcases hall m (h.mem_trail hover) with hnone | hsome
  · rw [hnone] at hi
    cases hi
  · rw [hsome] at hi
    cases hi
    cases (held_readsConstant hheld).2

/-- One run and one addition by the host lead from the first heap to the second. -/
theorem used_readsConstant :
    readsConstant.Used sampleHost (heapForFirst.held readsConstant.parts) heapForFirst
      heapForSecond := by
  have hl : (Launch.main readsConstant.main).Spares sampleHost
      (heapForFirst.held readsConstant.parts)
      (.idle readsConstant.constants #[.array ⟨1⟩] {} heapForFirst) := by
    intro start r hstart hr
    have henter : (Launch.main readsConstant.main).enter
        (.idle readsConstant.constants #[.array ⟨1⟩] {} heapForFirst) =
          .ok () startOfReadsConstant := by decide +kernel
    rw [henter] at hstart
    cases hstart
    exact spares_readsConstant hr
  have hheap : ((Launch.main readsConstant.main).outcome sampleHost 8
      (.idle readsConstant.constants #[.array ⟨1⟩] {} heapForFirst)).heap = heapBetween := by
    decide +kernel
  have hfirst := CompiledUnit.Used.launched .unused (.main readsConstant.main) _ _ 8 hl
  rw [hheap] at hfirst
  exact hfirst.between (heapBetween.adds_addArray _).kept

/-- Both runs read the same from the constant array, and leave the same in the arrays that they have
been given. -/
theorem unchanged_readsConstant :
    readsConstant.Unchanged heapForFirst heapForSecond ∧
    RunM.EndsAlike arraysOfRuns
      (readsConstant.run sampleHost 8 #[.array ⟨1⟩] {} heapForFirst)
      (readsConstant.run sampleHost 8 #[.array ⟨2⟩] {} heapForSecond) := by
  have hbears : heapForFirst.Bears readsConstant.parts := by
    intro k i hi
    obtain ⟨rfl | rfl, rfl⟩ := held_readsConstant hi
    · decide
    · decide
  have hrelated : Heap.Related arraysOfRuns heapForFirst heapForSecond := by
    constructor
    · rintro k a b ⟨rfl, rfl, rfl⟩
      decide
    · rintro k a b ⟨rfl, rfl, rfl⟩
      exact .cons (.int 5) .nil
  have hown {k : Kind} {a b : Nat} (hrel : arraysOfRuns.rel k a b)
      (hheld : heapForFirst.held readsConstant.parts k a ∨
        heapForFirst.held readsConstant.parts k b) : a = b := by
    obtain ⟨rfl, rfl, rfl⟩ := hrel
    rcases hheld with hheld | hheld
    · cases (held_readsConstant hheld).2
    · cases (held_readsConstant hheld).2
  have h := CompiledUnit.unchanged_and_repeatable HeapM.uniform_sampleHost (spares_sampleHost _)
    hbears used_readsConstant
  exact ⟨h.1, h.2 arraysOfRuns _ _ hrelated (.cons (.array ⟨rfl, rfl, rfl⟩) .nil) hown {} 8⟩

end ScriptVM
