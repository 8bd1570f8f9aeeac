import Mathlib.Logic.Function.Basic
import ScriptVM.Proofs.DeepCopy
import ScriptVM.Proofs.StoreSimulation

/-!
# Isolated globals

A context and the one over a deep copy of its globals do not hear of each other, whatever is called
through either. Each side has a part of the heap that it gets at, and the parts have no array, map
or cell in common. A call adds to the part of its own side and writes to nothing else, so the parts
stay apart, and each side goes on as it would if there were no other.
-/

namespace ScriptVM

/-! ## What a host sees

A side sees the answers to its own calls, and what it can get at from its globals. How objects are
numbered it does not see.
-/

/-- Nothing that can be got at from the globals of a handle has changed. -/
structure Store.Untouched (g : Globals) (s t : Store) : Prop where
  vector : t.vector g = s.vector g
  arrays : ∀ v ∈ s.vector g, ∀ ref, s.heap.Reaches v (.array ref) →
    t.heap.arrayAt ref = s.heap.arrayAt ref
  maps : ∀ v ∈ s.vector g, ∀ ref, s.heap.Reaches v (.map ref) →
    t.heap.mapAt ref = s.heap.mapAt ref
  cells : ∀ v ∈ s.vector g, ∀ f, s.heap.Reaches v (.function f) →
    ∀ c ∈ f.function.cells, t.heap.cellAt c = s.heap.cellAt c

/-- The same answer with related values, or the same reason why there is none. -/
inductive Answer.Alike (ρ : Renaming) : Except Refusal Answer → Except Refusal Answer → Prop where
  | ok {a a' : Answer} (h : a.Related ρ a') : Alike ρ (.ok a) (.ok a')
  | error (e : Refusal) : Alike ρ (.error e) (.error e)

/-- Two replies that look the same from one side, up to the numbering of objects. -/
structure Reply.Alike (g : Globals) (ρ : Renaming) (r r' : Reply) : Prop where
  side : r.side = r'.side
  looks : ∃ ρ₁ ≤ ρ, Answer.Alike ρ₁ r.answer r'.answer ∧
    Store.Related g ρ₁ r.hand.store r'.hand.store

/-- What looks the same goes on looking the same when more objects are paired. -/
theorem Reply.Alike.mono {g : Globals} {ρ ρ' : Renaming} {r r' : Reply} (h : r.Alike g ρ r')
    (hle : ρ ≤ ρ') : r.Alike g ρ' r' := by
  obtain ⟨ρ₁, hle₁, hlooks⟩ := h.looks
  exact ⟨h.side, ρ₁, hle₁.trans hle, hlooks⟩

/-- The sides do not hear of each other: a call leaves alone what the other side gets at, and what a
side sees of its calls is the same if the calls of the other side are left out. -/
structure Plan.Isolated (host : Host) (contexts : Side → Context) (s : Hand) (plan : Plan) :
    Prop where
  untouched : ∀ before call after, plan = before ++ call :: after → ∀ side, side ≠ call.side →
    let t := Plan.after host contexts before s
    Store.Untouched (contexts side).globals t.store (call.reply host contexts t).hand.store
  alike : ∀ side, ∃ ρ, List.Forall₂ (Reply.Alike (contexts side).globals ρ)
    ((plan.replies host contexts s).filter (·.side = side))
    ((plan.only side).replies host contexts s)

/-! ## What can be got at is paired

The renaming of a side pairs all that the side gets at with what it would get at by itself. So what
is not paired is none of its business.
-/

/-- What is reached from a value that is related to another is related to something too. -/
theorem Heap.Reaches.related {ρ : Renaming} {h h' : Heap} {v w : Value} (hw : h.Reaches v w)
    (hr : Heap.Related ρ h h') {v' : Value} (hv : v.Related ρ v') : ∃ w', w.Related ρ w' := by
  induction hw generalizing v' with
  | refl v => exact ⟨v', hv⟩
  | element hu _ ih =>
    cases hv with
    | array hrel =>
      obtain ⟨u', hu'⟩ := exists_of_forall₂ (hr.contents hrel) (Array.mem_toList_iff.2 hu)
      exact ih hu'
  | field hu _ ih =>
    cases hv with
    | map hrel =>
      obtain ⟨p, hp⟩ := exists_of_forall₂ (hr.contents hrel) hu
      exact ih hp.2
  | payload _ ih =>
    cases hv with
    | error hv => exact ih hv
  | cell hc _ ih =>
    cases hv with
    | function _ hf =>
      obtain ⟨d, hrel⟩ := exists_of_forall₂ hf.cells hc
      exact ih (hr.contents hrel)

/-- If what is paired has not changed, nothing has changed for the handle. -/
theorem Store.Related.untouched {g : Globals} {ρ : Renaming} {s s' t : Store}
    (hr : Store.Related g ρ s s') (hvector : t.vector g = s.vector g)
    (hsame : ∀ {k a b}, ρ.rel k a b → s.heap.Same t.heap k a) : Store.Untouched g s t := by
  have hpaired {v w : Value} (hv : v ∈ s.vector g) (hw : s.heap.Reaches v w) :
      ∃ w', w.Related ρ w' := by
    obtain ⟨v', hv'⟩ := exists_of_forall₂ hr.globals (Array.mem_toList_iff.2 hv)
    exact hw.related hr.heap hv'
  refine ⟨hvector, fun v hv ref hreach => ?_, fun v hv ref hreach => ?_,
    fun v hv f hreach c hc => ?_⟩
  · obtain ⟨w', hw'⟩ := hpaired hv hreach
    cases hw' with
    | array hrel => exact hsame hrel
  · obtain ⟨w', hw'⟩ := hpaired hv hreach
    cases hw' with
    | map hrel => exact hsame hrel
  · obtain ⟨w', hw'⟩ := hpaired hv hreach
    cases hw' with
    | function _ hf =>
      obtain ⟨d, hrel⟩ := exists_of_forall₂ hf.cells hc
      exact hsame hrel

/-! ## Sides that are apart -/

/-- So many identities, each for itself. -/
def Renaming.identities (n : Nat) : Renaming where
  rel k a b := k = .identity ∧ a = b ∧ a < n
  unique := by
    rintro k a b a' b' ⟨-, rfl, -⟩ ⟨-, rfl, -⟩
    exact Iff.rfl

/-- What a host has, and for each side what it would have without the other, with the objects that
the side gets at. But for the first `n` identities, which both sides know, no object is of both
sides. -/
structure Hand.Apart (n : Nat) (contexts : Side → Context) (s : Hand)
    (own : Side → Renaming × Hand) : Prop where
  handles : ∀ {σ τ}, σ ≠ τ → (contexts σ).globals ≠ (contexts τ).globals
  constants : ∀ σ, StoreM.Vectors (.identities n) (contexts σ).constants (contexts σ).constants
  known : ∀ σ, .identities n ≤ (own σ).1
  related : ∀ σ, Store.Related (contexts σ).globals (own σ).1 s.store (own σ).2.store
  held : ∀ σ, Values.Related (own σ).1 (s.held σ) ((own σ).2.held σ)
  disjoint : ∀ {σ τ k a b b'}, σ ≠ τ → (own σ).1.rel k a b → (own τ).1.rel k a b' → k = .identity

/-- The host has gone on from `s` and `s'` to `t` and `t'` by what it has done on a side. -/
structure Hand.Advances (g : Globals) (σ : Side) (ρ ρ₁ : Renaming) (s s' t t' : Hand) : Prop where
  store : Store.Advances g ρ ρ₁ s.store s'.store t.store t'.store
  held : Values.Related ρ₁ (t.held σ) (t'.held σ)
  others : ∀ τ, τ ≠ σ → t.held τ = s.held τ

namespace Hand.Apart

variable {host : Host} {n : Nat} {contexts : Side → Context} {s t t' : Hand}
  {own : Side → Renaming × Hand} {ρ : Renaming} {σ τ : Side}

/-- What one side does leaves the objects of the other alone. -/
theorem same (hap : Hand.Apart n contexts s own) (hne : τ ≠ σ)
    (hadv : Hand.Advances (contexts σ).globals σ (own σ).1 ρ s (own σ).2 t t') {k : Kind}
    {a b : Nat} (hrel : (own τ).1.rel k a b) : s.store.heap.Same t.store.heap k a := by
  by_cases hk : k = .identity
  · subst hk
    trivial
  · refine hadv.store.grows.left ((hap.related τ).heap.bounds hrel).1 fun b' hrel' => hk ?_
    exact hap.disjoint hne hrel hrel'

/-- The other side's objects are not of this side, and a call changes objects of its own side
only. -/
theorem untouched (hap : Hand.Apart n contexts s own) (hne : τ ≠ σ)
    (hadv : Hand.Advances (contexts σ).globals σ (own σ).1 ρ s (own σ).2 t t') :
    Store.Untouched (contexts τ).globals s.store t.store :=
  (hap.related τ).untouched (hadv.store.others _ (hap.handles hne)) (hap.same hne hadv)

/-- The sides stay apart: new objects are of the side that has made them. -/
theorem advance (hap : Hand.Apart n contexts s own)
    (hadv : Hand.Advances (contexts σ).globals σ (own σ).1 ρ s (own σ).2 t t') :
    Hand.Apart n contexts t (Function.update own σ (ρ, t')) where
  handles := hap.handles
  constants := hap.constants
  known τ := by
    by_cases hτ : τ = σ
    · subst hτ
      rw [Function.update_self]
      exact (hap.known τ).trans hadv.store.grows.le
    · rw [Function.update_of_ne hτ]
      exact hap.known τ
  related τ := by
    by_cases hτ : τ = σ
    · subst hτ
      rw [Function.update_self]
      exact hadv.store.related
    · have hr := hap.related τ
      rw [Function.update_of_ne hτ]
      refine ⟨?_, hadv.store.size ▸ hr.left, hr.right, ?_⟩
      · exact hr.heap.of_same hadv.store.grows.leftCount (fun _ => Nat.le_refl _) fun hrel =>
          ⟨hap.same hτ hadv hrel, .refl ..⟩
      · rw [hadv.store.others _ (hap.handles hτ)]
        exact hr.globals
  held τ := by
    by_cases hτ : τ = σ
    · subst hτ
      rw [Function.update_self]
      exact hadv.held
    · rw [Function.update_of_ne hτ, hadv.others τ hτ]
      exact hap.held τ
  disjoint {τ₁ τ₂ k a b b'} hne hrel hrel' := by
    -- A pair of the other side is older than what has been added.
    have hold {τ : Side} {b b' : Nat} (hτ : τ ≠ σ) (hrel : (own τ).1.rel k a b)
        (hrel' : ρ.rel k a b') : k = .identity := by
      rcases hadv.store.grows.fresh hrel' with hrel' | ⟨hle, -⟩
      · exact hap.disjoint hτ hrel hrel'
      · exact absurd ((hap.related τ).heap.bounds hrel).1 (Nat.not_lt_of_le hle)
    by_cases h₁ : τ₁ = σ
    · subst h₁
      rw [Function.update_self] at hrel
      rw [Function.update_of_ne hne.symm] at hrel'
      exact hold hne.symm hrel' hrel
    · rw [Function.update_of_ne h₁] at hrel
      by_cases h₂ : τ₂ = σ
      · subst h₂
        rw [Function.update_self] at hrel'
        exact hold h₁ hrel hrel'
      · rw [Function.update_of_ne h₂] at hrel'
        exact hap.disjoint hne hrel hrel'

/-! ## Calls and plans

A call through a context works on a copy of the values in its globals, and puts back what has become
of them. In between it gets at the objects of its side, and makes new ones.
-/

/-- What the host reads is related. -/
theorem read (hap : Hand.Apart n contexts s own) (spots : List Spot) :
    Values.Related (own σ).1 ((s.read σ (contexts σ).globals spots).held σ)
      (((own σ).2.read σ (contexts σ).globals spots).held σ) := by
  rw [Hand.held_read_self, Hand.held_read_self]
  refine List.rel_append (hap.held σ) ?_
  refine List.forall₂_map_left_iff.2 (List.forall₂_map_right_iff.2 (List.forall₂_same.2 ?_))
  exact fun spot _ => Store.read_related (hap.related σ) spot

variable (hhost : HeapM.Uniform host)
include hhost

/-- A call is answered as it is with its side alone. -/
theorem reply (hap : Hand.Apart n contexts s own) {call : Call}
    (hcall : call.callee.Known (.identities n)) :
    let r := call.reply host contexts s
    let r' := call.reply host contexts (own call.side).2
    ∃ ρ, Hand.Advances (contexts call.side).globals call.side (own call.side).1 ρ s
      (own call.side).2 r.hand r'.hand ∧ Reply.Alike (contexts call.side).globals ρ r r' := by
  have hknown := hap.known call.side
  have hheld := hap.read (σ := call.side) call.reads
  have hadvance {ρ : Renaming} {t t' : Store}
      (hadv : Store.Advances (contexts call.side).globals (own call.side).1 ρ s.store
        (own call.side).2.store t t') :
      Hand.Advances (contexts call.side).globals call.side (own call.side).1 ρ s
        (own call.side).2
        { s.read call.side (contexts call.side).globals call.reads with store := t }
        { (own call.side).2.read call.side (contexts call.side).globals call.reads with
          store := t' } :=
    ⟨hadv, hheld.mono hadv.grows.le, fun τ hτ => Hand.held_read_of_ne s hτ _ _⟩
  have hperform := (Context.sim_perform hhost ((hap.constants call.side).mono hknown)
    (hcall.mono hknown) hheld).cases (le_refl _) (hap.related call.side)
  rw [Call.reply_eq, Call.reply_eq]
  -- What the side holds after reading is all that the call sees of what has been read.
  generalize s.read call.side (contexts call.side).globals call.reads = u at *
  generalize (own call.side).2.read call.side (contexts call.side).globals call.reads = u' at *
  dsimp only
  obtain ⟨a, a', ρ, t, t', hx, hy, hadv, ha⟩ | ⟨e, ρ, t, t', hx, hy, hadv⟩ := hperform
  · rw [hx, hy]
    exact ⟨ρ, hadvance hadv, rfl, ρ, le_refl _, .ok ha, hadv.related⟩
  · rw [hx, hy]
    exact ⟨ρ, hadvance hadv, rfl, ρ, le_refl _, .error e, hadv.related⟩

/-- The sides stay apart over a whole plan, and each sees what it sees of its own calls alone. -/
theorem run (hap : Hand.Apart n contexts s own) {plan : Plan}
    (hplan : ∀ call ∈ plan, call.callee.Known (.identities n)) :
    ∃ own', (∀ σ, (own σ).1 ≤ (own' σ).1) ∧
      Hand.Apart n contexts (plan.after host contexts s) own' ∧
      ∀ σ, List.Forall₂ (Reply.Alike (contexts σ).globals (own' σ).1)
        ((plan.replies host contexts s).filter (·.side = σ))
        ((plan.only σ).replies host contexts (own σ).2) := by
  induction plan generalizing s own with
  | nil => exact ⟨own, fun _ => le_refl _, hap, fun _ => .nil⟩
  | cons call plan ih =>
    obtain ⟨ρ, hadv, halike⟩ := hap.reply hhost (hplan call (.head _))
    obtain ⟨own', hle, hap', hrest⟩ := ih (hap.advance hadv) fun c hc => hplan c (.tail _ hc)
    have hside := call.side_reply host contexts s
    refine ⟨own', fun σ => ?_, hap', fun σ => ?_⟩
    · have hσ := hle σ
      by_cases h : σ = call.side
      · subst h
        rw [Function.update_self] at hσ
        exact hadv.store.grows.le.trans hσ
      · rwa [Function.update_of_ne h] at hσ
    · have hσ := hle σ
      have hrest := hrest σ
      rw [Plan.replies, Plan.only]
      by_cases h : call.side = σ
      · subst h
        rw [Function.update_self] at hσ hrest
        rw [List.filter_cons_of_pos (by simpa using hside), List.filter_cons_of_pos (by simp)]
        exact .cons (halike.mono hσ) hrest
      · rw [Function.update_of_ne (Ne.symm h)] at hσ hrest
        rw [List.filter_cons_of_neg (by simpa [hside] using h),
          List.filter_cons_of_neg (by simpa using h)]
        exact hrest

/-- Each call is one more step of the two sides apart, so the whole plan is told by an induction
over the calls. -/
theorem isolated {ρ : Side → Renaming} (hap : Hand.Apart n contexts s fun σ => (ρ σ, s))
    {plan : Plan} (hplan : ∀ call ∈ plan, call.callee.Known (.identities n)) :
    plan.Isolated host contexts s where
  untouched before call after heq σ hne := by
    subst heq
    have hbefore : ∀ c ∈ before, c.callee.Known (.identities n) := fun c hc =>
      hplan c (List.mem_append_left _ hc)
    obtain ⟨own', -, hap', -⟩ := hap.run hhost hbefore
    obtain ⟨ρ, hadv, -⟩ := hap'.reply hhost (hplan call (by simp))
    exact hap'.untouched hne hadv
  alike σ := by
    obtain ⟨own', -, -, halike⟩ := hap.run hhost hplan
    exact ⟨_, halike σ⟩

end Hand.Apart

/-! ## Contexts over deep copies

At the beginning one side has what was there before, and the other what the deep copy has added.
What both know are constants and functions without captured variables, which are identities and
nothing else.
-/

/-- A context in a store, where nothing refers to an object that is not there. -/
structure Context.Placed (c : Context) (s : Store) : Prop where
  heap : Heap.Related (.same s.heap) s.heap s.heap
  handle : c.globals.index < s.vectors.size
  globals : StoreM.Vectors (.same s.heap) (s.vector c.globals) (s.vector c.globals)
  constants : StoreM.Vectors (.same s.heap) c.constants c.constants

/-- The value is no array and no map, and as a function it has captured nothing. -/
def Value.Immutable : Value → Prop
  | .array _ | .map _ => False
  | .function f => f.function.CellFree
  | _ => True

/-- A callee that is known by itself is a function of the heap that has captured nothing. -/
def Callee.CellFree (h : Heap) : Callee → Prop
  | known f => f.id < h.identities ∧ f.function.CellFree
  | held _ => True

/-- A function without captured variables stands for itself. -/
theorem FunctionObject.related_identities {f : FunctionObject} {n : Nat} (hid : f.id < n)
    (hf : f.function.CellFree) : (Value.function f).Related (.identities n) (.function f) :=
  .function ⟨rfl, rfl, hid⟩ ⟨rfl, by rw [hf]; exact .nil⟩

/-- What has captured nothing is known on both sides. -/
theorem Callee.CellFree.known {h : Heap} {c : Callee} (hc : c.CellFree h) :
    c.Known (.identities h.identities) := by
  cases c with
  | known f => exact FunctionObject.related_identities hc.1 hc.2
  | held i => trivial

/-- What reaches nothing mutable consists of identities. -/
theorem Value.Related.identities {h : Heap} {v : Value} (hv : v.Related (.same h) v)
    (himm : ∀ w, h.Reaches v w → w.Immutable) : v.Related (.identities h.identities) v := by
  induction v with
  | array ref => exact (himm _ (.refl _)).elim
  | map ref => exact (himm _ (.refl _)).elim
  | error payload ih =>
    cases hv with
    | error hv => exact .error (ih hv fun w hw => himm w (.payload hw))
  | function f =>
    cases hv with
    | function hid _ => exact FunctionObject.related_identities hid.2 (himm _ (.refl _))
  | undefined => exact .undefined
  | bool b => exact .bool b
  | int n => exact .int n
  | float x => exact .float x
  | string s => exact .string s
  | builtin b => exact .builtin b

/-- A deep copy of globals gets a new handle, and the copies are made of added objects only. -/
theorem Globals.deepCopy_eq {g : Globals} {s : Store}
    (hh : Heap.Related (.same s.heap) s.heap s.heap)
    (hg : StoreM.Vectors (.same s.heap) (s.vector g) (s.vector g))
    (hfree : ∀ v ∈ s.vector g, s.heap.Only Function.CellFree v) :
    ∃ copies h, g.deepCopy s = .ok ⟨s.vectors.size⟩ ⟨h, s.vectors.push copies⟩ ∧
      s.heap.Extended h ∧ StoreM.Vectors (.since s.heap h) copies copies := by
  have hcopies : HeapM.OnlyAdds s.heap (.since s.heap s.heap)
      ((s.vector g).toList.mapM Value.deepCopy) fun ρ copies => ∀ v ∈ copies, HeapM.Own ρ v :=
    HeapM.onlyAdds_mapM fun v hv ρ =>
      HeapM.onlyAdds_deepCopy hh (List.forall₂_same.1 hg v hv) (hfree v (Array.mem_toList_iff.1 hv))
  obtain ⟨copies, h, heq, -, he, hown⟩ := hcopies s.heap (.refl _) (le_refl _)
  refine ⟨copies.toArray, h, ?_, he, List.forall₂_same.2 (by simpa using hown)⟩
  show (StoreM.onHeap ((s.vector g).toList.mapM Value.deepCopy) >>= fun copies =>
    new copies.toArray) s = _
  simp only [Bind.bind, EStateM.bind, StoreM.onHeap, StoreM.onRun_eq, RunM.onHeap, heq]
  rfl

/-- What a side gets at: the source at what was there before, the copy at what has been added. -/
def Side.objects (h₀ h : Heap) : Side → Renaming
  | source => .same h₀
  | copy => .since h₀ h

/-- The deep copy only adds, so the sides are apart when it has been made. -/
theorem Hand.apart_withGlobals {c : Context} {s : Store} (hc : c.Placed s) {h : Heap}
    {copies : Array Value} (he : s.heap.Extended h)
    (hcopies : StoreM.Vectors (.since s.heap h) copies copies)
    (hpool : StoreM.Vectors (.identities s.heap.identities) c.constants c.constants) :
    Hand.Apart s.heap.identities (Side.pick c (c.withGlobals ⟨s.vectors.size⟩))
      ⟨⟨h, s.vectors.push copies⟩, fun _ => []⟩
      fun σ => (σ.objects s.heap h, ⟨⟨h, s.vectors.push copies⟩, fun _ => []⟩) where
  handles {σ τ} hne heq := by
    have hsource : c.globals ≠ ⟨s.vectors.size⟩ := fun heq => by
      have hlt := hc.handle
      rw [heq] at hlt
      exact Nat.lt_irrefl _ hlt
    cases σ <;> cases τ
    · exact hne rfl
    · exact hsource heq
    · exact hsource heq.symm
    · exact hne rfl
  constants σ := by cases σ <;> exact hpool
  known σ k a b hrel := by
    obtain ⟨rfl, rfl, hlt⟩ := hrel
    cases σ with
    | source => exact ⟨rfl, hlt⟩
    | copy => exact ⟨rfl, Nat.lt_of_lt_of_le hlt (he.le .identity), .inl rfl⟩
  related σ := by
    cases σ with
    | source =>
      have hlt : c.globals.index < (s.vectors.push copies).size := by
        simpa using Nat.lt_succ_of_lt hc.handle
      have hvector : Store.vector ⟨h, s.vectors.push copies⟩ c.globals = s.vector c.globals :=
        Store.vector_pushed_of_lt h copies hc.handle
      refine ⟨hc.heap.of_same he.le he.le fun hrel => ?_, hlt, hlt, ?_⟩
      · exact ⟨he.same _ _ (hc.heap.bounds hrel).1, he.same _ _ (hc.heap.bounds hrel).2⟩
      · show StoreM.Vectors _ (Store.vector ⟨h, _⟩ c.globals) (Store.vector ⟨h, _⟩ c.globals)
        rw [hvector]
        exact hc.globals
    | copy =>
      have hlt : s.vectors.size < (s.vectors.push copies).size := by simp
      have hvector : Store.vector ⟨h, s.vectors.push copies⟩ ⟨s.vectors.size⟩ = copies :=
        Store.vector_pushed h copies
      refine ⟨he.added, hlt, hlt, ?_⟩
      show StoreM.Vectors _ (Store.vector ⟨h, _⟩ ⟨s.vectors.size⟩) (Store.vector ⟨h, _⟩ ⟨_⟩)
      rw [hvector]
      exact hcopies
  held _ := .nil
  disjoint {σ τ k a b b'} hne hrel hrel' := by
    -- What the source gets at was there before the copy was made and what the copy gets at was not,
    -- unless it is an identity, which nobody can change.
    have hold {b b' : Nat} (hrel : (Renaming.same s.heap).rel k a b)
        (hrel' : (Renaming.since s.heap h).rel k a b') : k = .identity := by
      rcases hrel'.2.2 with hk | hle
      · exact hk
      · exact absurd hrel.2 (Nat.not_lt_of_le hle)
    cases σ <;> cases τ
    · exact absurd rfl hne
    · exact hold hrel hrel'
    · exact hold hrel' hrel
    · exact absurd rfl hne

/-- A context with isolated globals is a hard boundary. Let no function that can be got at from a
context's globals have captured anything, let nothing mutable be got at from its constants, and let
the functions of the host keep no state. Then there is a context over a deep copy of the globals,
and whatever is called through the one or the other, in any order and with any outcome, neither side
hears of the other. -/
theorem Context.withIsolatedGlobals_isolated {host : Host} (hhost : HeapM.Uniform host)
    {c : Context} {s : Store} (hc : c.Placed s)
    (hglobals : ∀ v ∈ s.vector c.globals, s.heap.Only Function.CellFree v)
    (hconstants : ∀ v ∈ c.constants, ∀ w, s.heap.Reaches v w → w.Immutable) :
    ∃ copy t, c.withIsolatedGlobals s = .ok copy t ∧
      ∀ plan : Plan, (∀ call ∈ plan, call.callee.CellFree s.heap) →
        plan.Isolated host (Side.pick c copy) ⟨t, fun _ => []⟩ := by
  obtain ⟨copies, h, heq, he, hcopies⟩ := Globals.deepCopy_eq hc.heap hc.globals hglobals
  refine ⟨c.withGlobals ⟨s.vectors.size⟩, ⟨h, s.vectors.push copies⟩, ?_, fun plan hplan => ?_⟩
  · show (c.globals.deepCopy >>= fun g => pure (c.withGlobals g)) s = _
    simp only [Bind.bind, EStateM.bind, heq]
    rfl
  · have hpool : StoreM.Vectors (.identities s.heap.identities) c.constants c.constants := by
      refine List.forall₂_same.2 fun v hv => ?_
      exact (List.forall₂_same.1 hc.constants v hv).identities
        (hconstants v (Array.mem_toList_iff.1 hv))
    have hap := Hand.apart_withGlobals hc he hcopies hpool
    exact hap.isolated hhost fun call hcall => (hplan call hcall).known

/-! ### Closures that are kept in globals

A function puts a new closure into an array of the globals. Both sides have it do so, and then call
the closures that they find there, which count in variables of their own.
-/

def countsUp : Function :=
  { Function.ofCode #[Opcode.getFree.byte, 0, Opcode.constant.byte, 0, 3, Opcode.add.byte,
      Opcode.setFree.byte, 0, Opcode.getFree.byte, 0, Opcode.ret.byte, 1] 0 0 with
    captures := [.ofLocal 0] }

/-- Puts a closure over its argument into an array of the globals. -/
def putsClosure : Function :=
  .ofCode #[Opcode.getGlobal.byte, 0, 0, Opcode.constant.byte, 0, 1, Opcode.closure.byte, 0, 2,
    Opcode.setIndex.byte, Opcode.ret.byte, 0] 1 1

def unitOfClosures : CompiledUnit where
  id := 2
  main := .ofCode #[Opcode.halt.byte] 0 0
  constants := #[.function ⟨0, putsClosure⟩, .int 0, .function ⟨1, countsUp⟩, .int 1]

def storeOfClosures : Store where
  heap := { arrays := #[#[.undefined]], identities := 3 }
  vectors := #[#[.array ⟨0⟩]]

def contextOfClosures : Context := ⟨unitOfClosures.constants, ⟨0⟩, unitOfClosures, {}⟩

def putCall (side : Side) (n : Int64) : Call :=
  ⟨side, true, 100, [], .known ⟨0, putsClosure⟩, [.int n], [0]⟩

def countCall (side : Side) (args : List Nat) : Call :=
  ⟨side, false, 100, [⟨0, [.index 0]⟩], .held 0, [.int 0], args⟩

/-- Both sides make a closure and count, and one of the calls is a fault. -/
def planOfClosures : Plan :=
  [putCall .source 5, putCall .copy 7, countCall .source [], countCall .copy [],
    countCall .source [0], countCall .source []]

/-- The one array of the heap has an index that is there. -/
theorem placed_contextOfClosures : contextOfClosures.Placed storeOfClosures where
  heap := by
    refine ⟨fun hrel => ?_, fun {k a b} hrel => ?_⟩
    · obtain ⟨rfl, hlt⟩ := hrel
      exact ⟨hlt, hlt⟩
    · obtain ⟨rfl, hlt⟩ := hrel
      cases k with
      | array =>
        obtain rfl : a = 0 := Nat.lt_one_iff.1 hlt
        exact .cons .undefined .nil
      | identity => trivial
      | _ => exact absurd hlt (Nat.not_lt_zero _)
  handle := Nat.zero_lt_one
  globals := .cons (.array ⟨rfl, Nat.zero_lt_one⟩) .nil
  constants := .cons (.function ⟨rfl, by decide⟩ ⟨rfl, .nil⟩) <| .cons (.int 0) <|
    .cons (.function ⟨rfl, by decide⟩ ⟨rfl, .nil⟩) <| .cons (.int 1) .nil

/-- The hypotheses of the boundary are met, though closures are kept in the globals afterwards. -/
theorem withIsolatedGlobals_planOfClosures :
    ∃ copy t, contextOfClosures.withIsolatedGlobals storeOfClosures = .ok copy t ∧
      planOfClosures.Isolated sampleHost (Side.pick contextOfClosures copy) ⟨t, fun _ => []⟩ := by
  have hglobals : ∀ v ∈ storeOfClosures.vector contextOfClosures.globals,
      storeOfClosures.heap.Only Function.CellFree v := by
    intro v hv g hg
    have hv : v ∈ [Value.array ⟨0⟩] := Array.mem_toList_iff.2 hv
    obtain rfl := List.mem_singleton.1 hv
    cases hg with
    | @element _ u _ hu hg =>
      have hu : u ∈ [Value.undefined] := Array.mem_toList_iff.2 hu
      obtain rfl := List.mem_singleton.1 hu
      cases hg
  have hconstants : ∀ v ∈ contextOfClosures.constants, ∀ w, storeOfClosures.heap.Reaches v w →
      w.Immutable := by
    intro v hv w hw
    have hv : v ∈ [Value.function ⟨0, putsClosure⟩, .int 0, .function ⟨1, countsUp⟩, .int 1] :=
      Array.mem_toList_iff.2 hv
    have hfunction {f : FunctionObject} (hf : f.function.CellFree)
        (hw : storeOfClosures.heap.Reaches (.function f) w) : w.Immutable := by
      cases hw with
      | refl => exact hf
      | cell hc => exact absurd (hf ▸ hc) List.not_mem_nil
    simp only [List.mem_cons, List.not_mem_nil, or_false] at hv
    rcases hv with rfl | rfl | rfl | rfl
    · exact hfunction rfl hw
    · cases hw
      trivial
    · exact hfunction rfl hw
    · cases hw
      trivial
  have hplan : ∀ call ∈ planOfClosures, call.callee.CellFree storeOfClosures.heap := by
    intro call hcall
    simp only [planOfClosures, List.mem_cons, List.not_mem_nil, or_false] at hcall
    rcases hcall with rfl | rfl | rfl | rfl | rfl | rfl <;>
      first | exact ⟨by decide, rfl⟩ | trivial
  obtain ⟨copy, t, heq, hisolated⟩ := Context.withIsolatedGlobals_isolated HeapM.uniform_sampleHost
    placed_contextOfClosures hglobals hconstants
  exact ⟨copy, t, heq, hisolated _ hplan⟩

/-- What the calls of both sides come to: each counts on from its own argument. -/
example : (match contextOfClosures.withIsolatedGlobals storeOfClosures with
    | .ok copy t =>
      (planOfClosures.replies sampleHost (Side.pick contextOfClosures copy) ⟨t, fun _ => []⟩).map
        fun r => r.answer.toOption.bind (·.result.asInt?)
    | .error .. => []) = [none, none, some 6, some 8, none, some 7] := by
  decide +kernel

end ScriptVM
