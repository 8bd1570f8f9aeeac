import Mathlib.Data.List.Nodup
import ScriptVM.Proofs.Exec
import ScriptVM.Proofs.HeapSimulation
import ScriptVM.Proofs.View

/-!
# Deep copies are detached

A deep copy walks a value along its containers and makes a new one at each step. A container that
stands at several places of the value is met several times, and copied each time, so the copy is a
tree of new containers. Since these are added one after the other, what a part of the copy consists
of is told by when it was made: all of it lies between the heap that the part was begun in and the
one it was finished in. Parts made one after the other therefore have nothing in common, and no part
has anything in common with the value.
-/

namespace ScriptVM

abbrev Objects.all : Objects := fun _ _ => True

def Container.value : Container → Value
  | array ref => .array ref
  | map ref => .map ref

/-! ## Copies -/

/-- Between `h` and `h'` the value `w` has been made, which shows what `v` shows in `h₀` and
consists of new containers, each at one place. -/
structure Heap.Copied (h₀ h h' : Heap) (v w : Value) : Prop where
  kept : h.Kept .all h'
  view : ∀ depth, h'.view depth w = h₀.view depth v
  added : ∀ k i, h'.inside w k i → h.count k ≤ i ∧ i < h'.count k
  once : ∀ depth, (h'.occurrences depth w).Nodup

/-- The same of several values, made one after the other. -/
structure Heap.CopiedAll (h₀ h h' : Heap) (vs ws : List Value) : Prop where
  kept : h.Kept .all h'
  view : ∀ depth, ws.map (h'.view depth) = vs.map (h₀.view depth)
  added : ∀ w ∈ ws, ∀ k i, h'.inside w k i → h.count k ≤ i ∧ i < h'.count k
  once : ∀ depth, (ws.flatMap (h'.occurrences depth)).Nodup

namespace Heap

variable {h₀ h h₁ h' : Heap} {v w : Value} {vs ws : List Value}

/-- A value stays as it is while other containers are added. -/
theorem Kept.of_provides (hk : h.Kept .all h') (hv : h.Provides v) :
    (∀ depth, h'.view depth v = h.view depth v) ∧
    (∀ depth, h'.occurrences depth v = h.occurrences depth v) ∧
    ∀ k i, h'.inside v k i → h.inside v k i := by
  have hsame : ∀ k i, h.inside v k i → h.Same h' k i :=
    fun k i hi => hk.same k i trivial (hv k i hi)
  refine ⟨view_eq hsame, occurrences_eq hsame, ?_⟩
  rintro k i ⟨u, hu, hobject⟩
  exact ⟨u, hu.of_same hsame, hobject⟩

/-- The containers of a copy are on the heap. -/
theorem Copied.provides (hc : h₀.Copied h h' v w) : h'.Provides w :=
  fun k i hi => (hc.added k i hi).2

theorem CopiedAll.provides (hcs : h₀.CopiedAll h h' vs ws) (hw : w ∈ ws) : h'.Provides w :=
  fun k i hi => (hcs.added w hw k i hi).2

theorem CopiedAll.nil (h₀ h : Heap) : h₀.CopiedAll h h [] [] where
  kept := .refl h
  view _ := rfl
  added := by simp
  once _ := .nil

/-- What is made first lies before what is made next, so the two have nothing in common. -/
theorem CopiedAll.cons (hc : h₀.Copied h h₁ v w) (hcs : h₀.CopiedAll h₁ h' vs ws) :
    h₀.CopiedAll h h' (v :: vs) (w :: ws) := by
  obtain ⟨hview, hoccurrences, hinside⟩ := hcs.kept.of_provides hc.provides
  constructor
  case kept => exact hc.kept.trans hcs.kept
  case view =>
    intro depth
    rw [List.map_cons, List.map_cons, hview, hc.view, hcs.view]
  case added =>
    intro u hu k i hi
    rcases List.mem_cons.1 hu with rfl | hu
    · have hrange := hc.added k i (hinside k i hi)
      exact ⟨hrange.1, Nat.lt_of_lt_of_le hrange.2 (hcs.kept.count k)⟩
    · have hrange := hcs.added u hu k i hi
      exact ⟨Nat.le_trans (hc.kept.count k) hrange.1, hrange.2⟩
  case once =>
    intro depth
    rw [List.flatMap_cons, hoccurrences]
    refine List.Nodup.append (hc.once depth) (hcs.once depth) ?_
    -- The first copy was finished before the others were begun.
    rintro ⟨k, i⟩ hfirst hrest
    obtain ⟨u, hu, hi⟩ := List.mem_flatMap.1 hrest
    have hlt := hc.provides k i (inside_of_mem_occurrences hfirst)
    have hle := (hcs.added u hu k i (inside_of_mem_occurrences hi)).1
    exact Nat.not_lt_of_le hle hlt

/-- A container that is added to hold the copies is a copy of the container that holds the
values. -/
theorem CopiedAll.container {k : Kind} (hcs : h₀.CopiedAll h h₁ vs ws) (hadd : Adds k h₁ h')
    (hobject : w.object? = some (k, h₁.count k)) (hholds : ∀ u, h'.Holds w u → u ∈ ws)
    (hview : ∀ depth, ws.map (h'.view depth) = vs.map (h₀.view depth) →
      h'.view (depth + 1) w = h₀.view (depth + 1) v)
    (hoccurrences : ∀ depth, h'.occurrences (depth + 1) w =
      (k, h₁.count k) :: ws.flatMap (h'.occurrences depth)) :
    h₀.Copied h h' v w := by
  have hkept : h₁.Kept .all h' := hadd.kept
  have hlater {u : Value} (hu : u ∈ ws) := hkept.of_provides (hcs.provides hu)
  constructor
  case kept => exact hcs.kept.trans hkept
  case view =>
    intro depth
    cases depth with
    | zero => rfl
    | succ depth =>
      apply hview
      rw [← hcs.view depth]
      exact List.map_congr_left fun u hu => (hlater hu).1 depth
  case added =>
    rintro k' i ⟨u, hu, hobject'⟩
    rcases hu.of_container hobject with rfl | ⟨x, hx, hu⟩
    · rw [hobject] at hobject'
      cases hobject'
      exact ⟨hcs.kept.count k, hadd.lt⟩
    · have hi := (hlater (hholds x hx)).2.2 k' i ⟨u, hu, hobject'⟩
      have hrange := hcs.added x (hholds x hx) k' i hi
      exact ⟨hrange.1, Nat.lt_of_lt_of_le hrange.2 (hadd.le k')⟩
  case once =>
    intro depth
    cases depth with
    | zero => exact .nil
    | succ depth =>
      have hsame : ws.flatMap (h'.occurrences depth) = ws.flatMap (h₁.occurrences depth) :=
        List.flatMap_congr fun u hu => (hlater hu).2.1 depth
      rw [hoccurrences, hsame]
      refine List.nodup_cons.2 ⟨fun hmem => ?_, hcs.once depth⟩
      obtain ⟨u, hu, hi⟩ := List.mem_flatMap.1 hmem
      exact Nat.lt_irrefl _ (hcs.provides hu _ _ (inside_of_mem_occurrences hi))

end Heap

/-! ## Computations that copy

Each of these begins in a heap that may have been added to since the value was looked at. The value
is still there as it was, so what is copied of it is what it was made of.
-/

namespace HeapM

variable {h₀ : Heap} {v : Value} {vs : List Value}

/-- In every heap that `h₀` has become by additions, the computation makes a copy of a value. -/
def Copies (h₀ : Heap) (v : Value) (x : HeapM Value) : Prop :=
  ∀ h, h₀.Kept .all h → ∃ w h', x h = .ok w h' ∧ h₀.Copied h h' v w

def CopiesAll (h₀ : Heap) (vs : List Value) (x : HeapM (List Value)) : Prop :=
  ∀ h, h₀.Kept .all h → ∃ ws h', x h = .ok ws h' ∧ h₀.CopiedAll h h' vs ws

/-- The first part is known to succeed. -/
theorem bind_of_ok {α β : Type} {x : HeapM α} {k : α → HeapM β} {a : α} {h h' : Heap}
    (hx : x h = .ok a h') : (x >>= k) h = k a h' := by
  simp only [bind, EStateM.bind, hx]

/-- The values are copied one after another. -/
theorem copies_mapM {k : Value → HeapM Value} (hk : ∀ v ∈ vs, Copies h₀ v (k v)) :
    CopiesAll h₀ vs (vs.mapM k) := by
  induction vs with
  | nil => exact fun h _ => ⟨[], h, rfl, .nil h₀ h⟩
  | cons v vs ih =>
    intro h hh
    obtain ⟨w, h₁, hw, hc⟩ := hk v List.mem_cons_self h hh
    obtain ⟨ws, h', hws, hcs⟩ := ih (fun u hu => hk u (List.mem_cons_of_mem v hu)) h₁
      (hh.trans hc.kept)
    refine ⟨w :: ws, h', ?_, .cons hc hcs⟩
    rw [List.mapM_cons, bind_of_ok hw, bind_of_ok hws]
    rfl

/-- A value without containers is its own copy. -/
theorem copies_pure (hplain : ∀ depth (h : Heap), h.view (depth + 1) v = .plain v)
    (hnone : ∀ h : Heap, ∀ k i, ¬ h.inside v k i) : Copies h₀ v (pure v) := by
  intro h _
  have hoccurrences (depth : Nat) : h.occurrences depth v = [] := by
    refine List.eq_nil_iff_forall_not_mem.2 ?_
    rintro ⟨k, i⟩ hi
    exact hnone h k i (Heap.inside_of_mem_occurrences hi)
  refine ⟨v, h, rfl, .refl h, ?_, fun k i hi => absurd hi (hnone h k i), fun depth => ?_⟩
  · intro depth
    cases depth with
    | zero => rfl
    | succ depth => rw [hplain, hplain]
  · rw [hoccurrences]
    exact .nil

/-- An error is copied with its payload. -/
theorem copies_error {x : HeapM Value} (hx : Copies h₀ v x) :
    Copies h₀ (.error v) (do return .error (← x)) := by
  intro h hh
  obtain ⟨w, h', hw, hc⟩ := hx h hh
  refine ⟨.error w, h', ?_, hc.kept, ?_, ?_, ?_⟩
  · rw [bind_of_ok hw]
    rfl
  · intro depth
    cases depth with
    | zero => rfl
    | succ depth => rw [Heap.view, Heap.view, hc.view]
  · rintro k i ⟨u, hu, hobject⟩
    cases hu with
    | refl => cases hobject
    | payload hu => exact hc.added k i ⟨u, hu, hobject⟩
  · intro depth
    cases depth with
    | zero => exact .nil
    | succ depth => exact hc.once depth

/-- An array is copied with its elements, which are still those that it had. -/
theorem copies_array {ref : ArrayRef} (href : ref.index < h₀.count .array)
    {k : Value → HeapM Value} (hk : ∀ u ∈ h₀.arrayAt ref, Copies h₀ u (k u)) :
    Copies h₀ (.array ref) (do
      let items ← ((← get).arrayAt ref).toList.mapM k
      newArray items.toArray) := by
  intro h hh
  have hitems : h.arrayAt ref = h₀.arrayAt ref := hh.same .array ref.index trivial href
  have helements : ∀ u ∈ (h₀.arrayAt ref).toList, Copies h₀ u (k u) :=
    fun u hu => hk u (Array.mem_toList_iff.1 hu)
  obtain ⟨ws, h₁, hws, hcs⟩ := copies_mapM helements h hh
  have hnew := h₁.arrayAt_addArray_new ws.toArray
  refine ⟨.array (h₁.addArray ws.toArray).1, (h₁.addArray ws.toArray).2, ?_,
    hcs.container (h₁.adds_addArray ws.toArray) rfl ?_ ?_ ?_⟩
  · rw [bind_of_ok (Exec.get_eq h), hitems, bind_of_ok hws]
    rfl
  · intro u hu
    cases hu with
    | element hu =>
      rw [hnew] at hu
      exact List.mem_toArray.1 hu
  · intro depth hviews
    rw [Heap.view, Heap.view, hnew, List.toList_toArray, hviews]
  · intro depth
    rw [Heap.occurrences, hnew]
    rfl

/-- Going through the entries is going through the values. -/
theorem traverseEntries_of_mapM {α : Type} {k : α → HeapM Value} {entries : List (String × α)}
    {ws : List Value} {h h' : Heap} (hws : (entries.map Prod.snd).mapM k h = .ok ws h') :
    ∃ r, FieldMap.traverseEntries k entries h = .ok r h' ∧ r.1.map Prod.snd = ws := by
  induction entries generalizing h ws with
  | nil =>
    cases hws
    exact ⟨_, rfl, rfl⟩
  | cons p entries ih =>
    rw [List.map_cons, List.mapM_cons] at hws
    simp only [bind, EStateM.bind] at hws
    cases hfirst : k p.2 h with
    | error e h₁ => simp [hfirst] at hws
    | ok w h₁ =>
      simp only [hfirst] at hws
      cases hrest : (entries.map Prod.snd).mapM k h₁ with
      | error e h₂ => simp [hrest] at hws
      | ok ws' h₂ =>
        simp only [hrest] at hws
        cases hws
        obtain ⟨r, hr, hvalues⟩ := ih hrest
        refine ⟨⟨(p.1, w) :: r.1, by simp [r.2]⟩, ?_, by simp [hvalues]⟩
        rw [FieldMap.traverseEntries, bind_of_ok hfirst, bind_of_ok hr]
        rfl

/-- The keys of the new map are those of the old one. -/
theorem traverse_of_mapM {α : Type} {k : α → HeapM Value} {fields : FieldMap α} {ws : List Value}
    {h h' : Heap} (hws : (fields.entries.map Prod.snd).mapM k h = .ok ws h') :
    ∃ new : FieldMap Value, fields.traverse k h = .ok new h' ∧
      new.entries.map Prod.fst = fields.entries.map Prod.fst ∧
      new.entries.map Prod.snd = ws := by
  obtain ⟨⟨entries, hkeys⟩, hr, hvalues⟩ := traverseEntries_of_mapM hws
  refine ⟨⟨entries, FieldMap.keysSorted_of_keys_eq fields.sorted hkeys⟩, ?_, hkeys, hvalues⟩
  rw [FieldMap.traverse, bind_of_ok hr]
  rfl

/-- A map is copied with its fields, which are still those that it had. -/
theorem copies_map {ref : MapRef} (href : ref.index < h₀.count .map)
    {k : Value → HeapM Value} (hk : ∀ p ∈ (h₀.mapAt ref).entries, Copies h₀ p.2 (k p.2)) :
    Copies h₀ (.map ref) (do
      let fields ← ((← get).mapAt ref).traverse k
      newMap fields) := by
  intro h hh
  have hfields : h.mapAt ref = h₀.mapAt ref := hh.same .map ref.index trivial href
  have hvalues : ∀ u ∈ (h₀.mapAt ref).entries.map Prod.snd, Copies h₀ u (k u) := by
    intro u hu
    obtain ⟨p, hp, rfl⟩ := List.mem_map.1 hu
    exact hk p hp
  obtain ⟨ws, h₁, hws, hcs⟩ := copies_mapM hvalues h hh
  obtain ⟨new, hnew, hkeys, rfl⟩ := traverse_of_mapM hws
  have hadded := h₁.mapAt_addMap_new new
  refine ⟨.map (h₁.addMap new).1, (h₁.addMap new).2, ?_,
    hcs.container (h₁.adds_addMap new) rfl ?_ ?_ ?_⟩
  · rw [bind_of_ok (Exec.get_eq h), hfields, bind_of_ok hnew]
    rfl
  · intro u hu
    cases hu with
    | field hu =>
      rw [hadded] at hu
      exact List.mem_map.2 ⟨_, hu, rfl⟩
  · intro depth hviews
    have hzip (f : Value → View) (entries : List (String × Value)) :
        entries.map (fun p => (p.1, f p.2)) =
          (entries.map Prod.fst).zip ((entries.map Prod.snd).map f) := by
      rw [List.map_map, List.zip_map']
      rfl
    rw [Heap.view, Heap.view, hadded]
    refine congrArg View.map ((hzip _ _).trans ?_)
    rw [hkeys, hviews, ← hzip]
  · intro depth
    rw [Heap.occurrences, hadded]
    rfl

/-! ## Deep copies

A walk stops where it meets a container that is on its way already. For a value in which no
container holds itself this never happens, and the walk sees all of it.
-/

/-- A walk that has come along a path may go on with a value: no container on the path is in it. -/
structure Walkable (h₀ : Heap) (path : List Container) (v : Value) : Prop where
  provides : h₀.Provides v
  acyclic : h₀.Acyclic v
  path : ∀ c ∈ path, ¬ h₀.Contains v c.value

namespace Walkable

variable {path : List Container} {u : Value} {c : Container}

/-- On an acyclic value no container is met on the way from itself. -/
theorem not_mem (hw : Walkable h₀ path c.value) : c ∉ path := fun hin => hw.path c hin (.refl _)

/-- What an error holds is reached over the error. -/
theorem payload (hw : Walkable h₀ path (.error v)) : Walkable h₀ path v := by
  have hpayload : h₀.Contains (.error v) v := .payload (.refl v)
  exact ⟨hw.provides.of_contains hpayload, hw.acyclic.of_contains hpayload,
    fun c hc hcontains => hw.path c hc (hpayload.trans hcontains)⟩

/-- From a container the walk goes on with what it holds. -/
theorem held (hw : Walkable h₀ path c.value) (hu : h₀.Holds c.value u) :
    Walkable h₀ (c :: path) u := by
  refine ⟨hw.provides.of_contains hu.contains, hw.acyclic.of_contains hu.contains, ?_⟩
  intro d hd hcontains
  rcases List.mem_cons.1 hd with rfl | hd
  · exact hw.acyclic _ (.refl _) u hu hcontains
  · exact hw.path d hd (hu.contains.trans hcontains)

end Walkable

/-- By induction on the depth, which suffices for the containers not on the path. -/
theorem copies_copyUpTo (n : Nat) (path : List Container) (hw : Walkable h₀ path v)
    (hn : unvisited h₀.inventory path ≤ n) : Copies h₀ v (v.copyUpTo n path) := by
  -- A container uses up a step and puts itself on the path, an error only leads into its payload.
  induction n using Nat.strongRecOn generalizing path v with
  | ind n ih =>
  rw [copyUpTo_eq]
  induction v with
  | array ref =>
    have href : ref.index < h₀.count .array := hw.provides .array ref.index ⟨_, .refl _, rfl⟩
    have hmem : .array ref ∈ h₀.inventory := Heap.array_mem_inventory.2 href
    have hin : .array ref ∉ path := hw.not_mem
    have hlt := unvisited_cons_lt hmem hin
    show Copies h₀ (.array ref) ((Value.array ref).copyUpTo n path)
    rw [copyUpTo_array hmem hn, if_neg hin]
    refine copies_array href fun u hu => ih (n - 1) (by omega) (.array ref :: path) ?_ (by omega)
    exact hw.held (.element hu)
  | map ref =>
    have href : ref.index < h₀.count .map := hw.provides .map ref.index ⟨_, .refl _, rfl⟩
    have hmem : .map ref ∈ h₀.inventory := Heap.map_mem_inventory.2 href
    have hin : .map ref ∉ path := hw.not_mem
    have hlt := unvisited_cons_lt hmem hin
    show Copies h₀ (.map ref) ((Value.map ref).copyUpTo n path)
    rw [copyUpTo_map hmem hn, if_neg hin]
    refine copies_map href fun p hp => ih (n - 1) (by omega) (.map ref :: path) ?_ (by omega)
    exact hw.held (.field hp)
  | error payload ihPayload => exact copies_error (ihPayload hw.payload)
  | _ =>
    refine copies_pure (fun _ _ => rfl) ?_
    rintro h k i ⟨u, hu, hobject⟩
    cases hu
    cases hobject

/-- The depth is the number of containers, none of which has been visited. -/
theorem copies_deepCopy {h : Heap} (hprovides : h.Provides v) (hacyclic : h.Acyclic v) :
    ∃ w h', v.deepCopy h = .ok w h' ∧ h.Copied h h' v w := by
  have hn : unvisited h.inventory [] ≤ h.containers := h.length_inventory ▸ unvisited_le ..
  exact copies_copyUpTo h.containers [] ⟨hprovides, hacyclic, by simp⟩ hn h (.refl h)

/-- Writing to a container that is not in a value does not change what is seen of it. -/
theorem view_after_assign {h : Heap} {c : Value} (hprovides : h.Provides v)
    (hc : ∀ k i, c.object? = some (k, i) → ¬ h.inside v k i) (key u : Value) (depth : Nat) :
    (after (assign c key u) h).view depth v = h.view depth v := by
  have hkept := spares_assign (K := h.inside v) hc key u h
  exact Heap.view_eq (fun k i hi => hkept.same k i hi (hprovides k i hi)) depth

end HeapM

/-- A deep copy leaves everything as it is and shows what the value shows. It consists of new
containers, each of them at one place, so that writing to a container of the copy does not show in
the value, and writing to one of the value does not show in the copy. -/
theorem Value.deepCopy_detaches {h : Heap} {v : Value} (hprovides : h.Provides v)
    (hacyclic : h.Acyclic v) :
    ∃ w h', v.deepCopy h = .ok w h' ∧
      (∀ k i, i < h.count k → h.Same h' k i) ∧
      (∀ depth, h'.view depth w = h.view depth v) ∧
      (∀ k i, h'.inside w k i → h.count k ≤ i ∧ i < h'.count k ∧
        ∃ n, ∀ depth ≥ n, (h'.occurrences depth w).count (k, i) = 1) ∧
      (∀ c, h'.Contains w c → ∀ key u depth,
        (HeapM.after (HeapM.assign c key u) h').view depth v = h.view depth v) ∧
      ∀ c, h'.Contains v c → ∀ key u depth,
        (HeapM.after (HeapM.assign c key u) h').view depth w = h'.view depth w := by
  obtain ⟨w, h', hcopy, hc⟩ := HeapM.copies_deepCopy hprovides hacyclic
  -- The value is in the new heap what it was in the old one.
  obtain ⟨hview, -, hinside⟩ := hc.kept.of_provides hprovides
  have hold {k : Kind} {i : Nat} (hi : h'.inside v k i) : i < h.count k :=
    hprovides k i (hinside k i hi)
  have hprovides' : h'.Provides v := fun k i hi =>
    Nat.lt_of_lt_of_le (hold hi) (hc.kept.count k)
  refine ⟨w, h', hcopy, fun k i hi => hc.kept.same k i trivial hi, hc.view, ?_, ?_, ?_⟩
  · intro k i hi
    obtain ⟨n, hn⟩ := Heap.exists_mem_occurrences hi
    have hrange := hc.added k i hi
    refine ⟨hrange.1, hrange.2, n, fun depth hdepth => ?_⟩
    exact List.count_eq_one_of_mem (hc.once depth) (hn depth hdepth)
  · intro c hcontains key u depth
    rw [← hview depth]
    refine HeapM.view_after_assign hprovides' (fun k i hobject hi => ?_) key u depth
    exact Nat.not_lt_of_le (hc.added k i ⟨c, hcontains, hobject⟩).1 (hold hi)
  · intro c hcontains key u depth
    refine HeapM.view_after_assign hc.provides (fun k i hobject hi => ?_) key u depth
    exact Nat.not_lt_of_le (hc.added k i hi).1 (hold ⟨c, hcontains, hobject⟩)

/-! ### A container at several places

An array is in the value three times, once of them in a map in an error.
-/

def heapOfShared : Heap where
  arrays := #[#[.int 1], #[.array ⟨0⟩, .array ⟨0⟩, .error (.map ⟨0⟩)]]
  maps := #[FieldMap.empty.insert "k" (.array ⟨0⟩)]

def partsOfShared : List Value :=
  [.array ⟨1⟩, .array ⟨0⟩, .error (.map ⟨0⟩), .map ⟨0⟩, .int 1]

/-- How far up in the value containers are. -/
def rankOfShared : Value → Nat
  | .array ref => 2 * ref.index + 1
  | .map _ | .error _ => 2
  | _ => 0

/-- The ranks show that no container of the value holds itself. -/
theorem holds_heapOfShared {c u : Value} (hc : c ∈ partsOfShared) (hu : heapOfShared.Holds c u) :
    u ∈ partsOfShared ∧ rankOfShared u < rankOfShared c := by
  cases hu with
  | @element ref u hu =>
    have hu : u ∈ (heapOfShared.arrayAt ref).toList := Array.mem_toList_iff.2 hu
    have href : ref = ⟨1⟩ ∨ ref = ⟨0⟩ := by simpa [partsOfShared] using hc
    revert u
    rcases href with rfl | rfl <;> decide
  | @field ref key u hu =>
    have href : ref = ⟨0⟩ := by simpa [partsOfShared] using hc
    subst href
    have hp : ∀ p ∈ (heapOfShared.mapAt ⟨0⟩).entries,
        p.2 ∈ partsOfShared ∧ rankOfShared p.2 < rankOfShared (.map ⟨0⟩) := by
      decide
    exact hp (key, u) hu

theorem contains_heapOfShared {w : Value} (hw : heapOfShared.Contains (.array ⟨1⟩) w) :
    w ∈ partsOfShared := by
  refine hw.of_closed List.mem_cons_self (fun c u hc hu => (holds_heapOfShared hc hu).1) ?_
  intro u hu
  have heq : u = .map ⟨0⟩ := by simpa [partsOfShared] using hu
  rw [heq]
  decide

theorem Value.deepCopy_detaches_shared :
    ∃ h', (Value.array ⟨1⟩).deepCopy heapOfShared = .ok (.array ⟨5⟩) h' ∧
      (∀ depth, h'.view depth (.array ⟨5⟩) = heapOfShared.view depth (.array ⟨1⟩)) ∧
      ∀ depth, (HeapM.after (HeapM.assign (.array ⟨5⟩) (.int 0) (.int 9)) h').view depth
        (.array ⟨1⟩) = heapOfShared.view depth (.array ⟨1⟩) := by
  have hprovides : heapOfShared.Provides (.array ⟨1⟩) := by
    rintro k i ⟨w, hw, hobject⟩
    have hparts : ∀ u ∈ partsOfShared, ∀ p ∈ u.object?, p.2 < heapOfShared.count p.1 := by decide
    exact hparts w (contains_heapOfShared hw) (k, i) hobject
  have hacyclic : heapOfShared.Acyclic (.array ⟨1⟩) :=
    Heap.acyclic_of_rank rankOfShared
      (fun c u hc hu => (holds_heapOfShared (contains_heapOfShared hc) hu).2)
      (fun u hu => by
        have heq : u = .map ⟨0⟩ := by simpa [partsOfShared] using contains_heapOfShared hu
        rw [heq]
        decide)
  obtain ⟨w, h', hcopy, -, hview, -, hwrite, -⟩ := Value.deepCopy_detaches hprovides hacyclic
  have hrun : ∃ h', (Value.array ⟨1⟩).deepCopy heapOfShared = .ok (.array ⟨5⟩) h' := ⟨_, rfl⟩
  obtain ⟨_, hrun⟩ := hrun
  rw [hrun] at hcopy
  cases hcopy
  exact ⟨_, hrun, hview, hwrite _ (.refl _) (.int 0) (.int 9)⟩

end ScriptVM
