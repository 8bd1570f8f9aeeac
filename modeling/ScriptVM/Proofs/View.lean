import ScriptVM.Proofs.Spared

/-!
# What is in a value and what is seen of it

A value is looked into through arrays, maps and errors, but not through functions. `Heap.Contains`
says what is in it, `Heap.view` what is seen of it down to a depth, and `Heap.occurrences` lists the
containers that are met on the way, each as often as it is met. All three depend on what the
containers in the value hold, and on nothing else of the heap.
-/

namespace ScriptVM

/-! ## What is in a value -/

/-- What is in a value, through containers and errors. Functions are not looked into. -/
inductive Heap.Contains (h : Heap) : Value → Value → Prop where
  | refl (v : Value) : Contains h v v
  | element {ref : ArrayRef} {v w : Value} (hv : v ∈ h.arrayAt ref) (hw : Contains h v w) :
    Contains h (.array ref) w
  | field {ref : MapRef} {key : String} {v w : Value} (hv : (key, v) ∈ (h.mapAt ref).entries)
    (hw : Contains h v w) : Contains h (.map ref) w
  | payload {v w : Value} (hw : Contains h v w) : Contains h (.error v) w

/-- The containers in a value, the value itself included. -/
def Heap.inside (h : Heap) (v : Value) : Objects :=
  fun k i => ∃ w, h.Contains v w ∧ w.object? = some (k, i)

/-- All containers in the value are there. -/
def Heap.Provides (h : Heap) (v : Value) : Prop := ∀ k i, h.inside v k i → i < h.count k

/-- What a container holds by itself. -/
inductive Heap.Holds (h : Heap) : Value → Value → Prop where
  | element {ref : ArrayRef} {v : Value} (hv : v ∈ h.arrayAt ref) : Holds h (.array ref) v
  | field {ref : MapRef} {key : String} {v : Value} (hv : (key, v) ∈ (h.mapAt ref).entries) :
    Holds h (.map ref) v

/-- No container in the value holds itself, not even through others. -/
def Heap.Acyclic (h : Heap) (v : Value) : Prop :=
  ∀ c, h.Contains v c → ∀ u, h.Holds c u → ¬ h.Contains u c

namespace Heap

variable {h h' : Heap} {u v w : Value}

/-- What is in something that is in a value is in the value. -/
theorem Contains.trans (hu : h.Contains v u) (hw : h.Contains u w) : h.Contains v w := by
  induction hu with
  | refl => exact hw
  | element hv _ ih => exact .element hv (ih hw)
  | field hv _ ih => exact .field hv (ih hw)
  | payload _ ih => exact .payload (ih hw)

theorem Holds.contains (hu : h.Holds v u) : h.Contains v u := by
  cases hu with
  | element hv => exact .element hv (.refl u)
  | field hv => exact .field hv (.refl u)

/-- What is in a container is the container or in what it holds. -/
theorem Contains.of_container {k : Kind} {i : Nat} (hobject : v.object? = some (k, i))
    (hw : h.Contains v w) : w = v ∨ ∃ u, h.Holds v u ∧ h.Contains u w := by
  cases hw with
  | refl => exact .inl rfl
  | element hu hw => exact .inr ⟨_, .element hu, hw⟩
  | field hu hw => exact .inr ⟨_, .field hu, hw⟩
  | payload => cases hobject

/-- A property that goes over to what is held and to payloads goes over to all that is in a
value. -/
theorem Contains.of_closed {P : Value → Prop} (hw : h.Contains v w) (hv : P v)
    (hholds : ∀ c u, P c → h.Holds c u → P u) (hpayload : ∀ u, P (.error u) → P u) : P w := by
  induction hw with
  | refl => exact hv
  | element hmem _ ih => exact ih (hholds _ _ hv (.element hmem))
  | field hmem _ ih => exact ih (hholds _ _ hv (.field hmem))
  | payload _ ih => exact ih (hpayload _ hv)

/-- A part of a value has no containers that the value has not. -/
theorem inside.mono {k : Kind} {i : Nat} (hw : h.Contains v w) (hi : h.inside w k i) :
    h.inside v k i := by
  obtain ⟨u, hu, hobject⟩ := hi
  exact ⟨u, hw.trans hu, hobject⟩

/-- The containers of a part are there if those of the value are. -/
theorem Provides.of_contains (hv : h.Provides v) (hw : h.Contains v w) : h.Provides w :=
  fun k i hi => hv k i (inside.mono hw hi)

/-- A part of an acyclic value is acyclic. -/
theorem Acyclic.of_contains (hv : h.Acyclic v) (hw : h.Contains v w) : h.Acyclic w :=
  fun c hc => hv c (hw.trans hc)

/-- A value is acyclic if its containers can be ranked such that what they hold is below them. -/
theorem acyclic_of_rank (rank : Value → Nat)
    (hholds : ∀ c u, h.Contains v c → h.Holds c u → rank u < rank c)
    (hpayload : ∀ u, h.Contains v (.error u) → rank u ≤ rank (.error u)) : h.Acyclic v := by
  intro c hc u hu hcycle
  have hbelow : h.Contains v c ∧ rank c ≤ rank u :=
    hcycle.of_closed (P := fun x => h.Contains v x ∧ rank x ≤ rank u)
      ⟨hc.trans hu.contains, Nat.le_refl _⟩
      (fun x y hx hy => ⟨hx.1.trans hy.contains, by have := hholds x y hx.1 hy; omega⟩)
      (fun y hy => ⟨hy.1.trans (.payload (.refl y)), Nat.le_trans (hpayload y hy.1) hy.2⟩)
  have := hholds c u hc hu
  omega

/-- What is in a value is the same if the containers in it hold what they held. -/
theorem Contains.of_same (hw : h'.Contains v w)
    (hv : ∀ k i, h.inside v k i → h.Same h' k i) : h.Contains v w := by
  induction hw with
  | refl v => exact .refl v
  | @element ref u w hu _ ih =>
    have hitems : h'.arrayAt ref = h.arrayAt ref := hv .array ref.index ⟨_, .refl _, rfl⟩
    rw [hitems] at hu
    exact .element hu (ih fun k i hi => hv k i (inside.mono (.element hu (.refl u)) hi))
  | @field ref key u w hu _ ih =>
    have hfields : h'.mapAt ref = h.mapAt ref := hv .map ref.index ⟨_, .refl _, rfl⟩
    rw [hfields] at hu
    exact .field hu (ih fun k i hi => hv k i (inside.mono (.field hu (.refl u)) hi))
  | @payload u w _ ih =>
    exact .payload (ih fun k i hi => hv k i (inside.mono (.payload (.refl u)) hi))

end Heap

/-! ## What is seen of a value -/

/-- What is seen of a value. -/
inductive View where
  /-- A value that nothing else is in. -/
  | plain (v : Value)
  | array (elements : List View)
  | map (fields : List (String × View))
  | error (payload : View)
  /-- Something that is too deep to be seen. -/
  | deeper

/-- What is seen of a value, down to a depth. -/
def Heap.view (h : Heap) : (depth : Nat) → Value → View
  | 0, _ => .deeper
  | depth + 1, .array ref => .array ((h.arrayAt ref).toList.map (h.view depth))
  | depth + 1, .map ref =>
    .map ((h.mapAt ref).entries.map fun (key, v) => (key, h.view depth v))
  | depth + 1, .error payload => .error (h.view depth payload)
  | _ + 1, v => .plain v

/-- The same is seen of a value if the containers in it hold what they held. -/
theorem Heap.view_eq {h h' : Heap} {v : Value} (hv : ∀ k i, h.inside v k i → h.Same h' k i)
    (depth : Nat) : h'.view depth v = h.view depth v := by
  induction depth generalizing v with
  | zero => rfl
  | succ depth ih =>
    have hpart {u : Value} (hu : h.Contains v u) : h'.view depth u = h.view depth u :=
      ih fun k i hi => hv k i (inside.mono hu hi)
    cases v with
    | array ref =>
      have hitems : h'.arrayAt ref = h.arrayAt ref := hv .array ref.index ⟨_, .refl _, rfl⟩
      rw [view, view, hitems]
      refine congrArg View.array (List.map_congr_left fun u hu => hpart ?_)
      exact .element (Array.mem_toList_iff.1 hu) (.refl u)
    | map ref =>
      have hfields : h'.mapAt ref = h.mapAt ref := hv .map ref.index ⟨_, .refl _, rfl⟩
      rw [view, view, hfields]
      refine congrArg View.map (List.map_congr_left fun p hp => congrArg (Prod.mk p.1) (hpart ?_))
      exact .field hp (.refl p.2)
    | error payload =>
      rw [view, view]
      exact congrArg View.error (hpart (.payload (.refl payload)))
    | _ => rfl

/-! ## The containers on the way

Containers are listed with repetitions here, so that a list without any says that each container is
at one place.
-/

namespace Heap

/-- The containers that are met in a value down to a depth, one as often as it is met. -/
def occurrences (h : Heap) : (depth : Nat) → Value → List (Kind × Nat)
  | 0, _ => []
  | depth + 1, .array ref =>
    (.array, ref.index) :: (h.arrayAt ref).toList.flatMap (h.occurrences depth)
  | depth + 1, .map ref =>
    (.map, ref.index) :: ((h.mapAt ref).entries.map Prod.snd).flatMap (h.occurrences depth)
  | depth + 1, .error payload => h.occurrences depth payload
  | _ + 1, _ => []

variable {h h' : Heap} {v : Value} {k : Kind} {i : Nat}

/-- A container that is met is in the value. -/
theorem inside_of_mem_occurrences {depth : Nat} (hi : (k, i) ∈ h.occurrences depth v) :
    h.inside v k i := by
  induction depth generalizing v with
  | zero => cases hi
  | succ depth ih =>
    cases v with
    | array ref =>
      rcases List.mem_cons.1 hi with heq | hi
      · cases heq
        exact ⟨_, .refl _, rfl⟩
      · obtain ⟨u, hu, hi⟩ := List.mem_flatMap.1 hi
        exact inside.mono (.element (Array.mem_toList_iff.1 hu) (.refl u)) (ih hi)
    | map ref =>
      rcases List.mem_cons.1 hi with heq | hi
      · cases heq
        exact ⟨_, .refl _, rfl⟩
      · obtain ⟨u, hu, hi⟩ := List.mem_flatMap.1 hi
        obtain ⟨⟨key, _⟩, hp, rfl⟩ := List.mem_map.1 hu
        exact inside.mono (.field hp (.refl _)) (ih hi)
    | error payload => exact inside.mono (.payload (.refl payload)) (ih hi)
    | _ => cases hi

/-- A container in the value is met from some depth on. -/
theorem exists_mem_occurrences (hi : h.inside v k i) :
    ∃ n, ∀ depth ≥ n, (k, i) ∈ h.occurrences depth v := by
  -- Each step into the value takes one more level than what comes after it.
  have hsucc {P : Nat → Prop} {n : Nat} (hP : ∀ depth ≥ n, P (depth + 1)) :
      ∀ depth ≥ n + 1, P depth := by
    intro depth hdepth
    obtain ⟨d, rfl⟩ := Nat.exists_eq_succ_of_ne_zero (Nat.ne_zero_of_lt hdepth)
    exact hP d (Nat.le_of_succ_le_succ hdepth)
  obtain ⟨w, hw, hobject⟩ := hi
  induction hw with
  | refl v =>
    refine ⟨0 + 1, hsucc fun depth _ => ?_⟩
    cases v <;> cases hobject
    · exact List.mem_cons_self
    · exact List.mem_cons_self
  | @element ref u w hu _ ih =>
    obtain ⟨n, hn⟩ := ih hobject
    refine ⟨n + 1, hsucc fun depth hdepth => List.mem_cons_of_mem _ ?_⟩
    exact List.mem_flatMap.2 ⟨u, Array.mem_toList_iff.2 hu, hn depth hdepth⟩
  | @field ref key u w hu _ ih =>
    obtain ⟨n, hn⟩ := ih hobject
    refine ⟨n + 1, hsucc fun depth hdepth => List.mem_cons_of_mem _ ?_⟩
    exact List.mem_flatMap.2 ⟨u, List.mem_map.2 ⟨(key, u), hu, rfl⟩, hn depth hdepth⟩
  | payload _ ih =>
    obtain ⟨n, hn⟩ := ih hobject
    exact ⟨n + 1, hsucc hn⟩

/-- The same containers are met in a value if the containers in it hold what they held. -/
theorem occurrences_eq (hv : ∀ k i, h.inside v k i → h.Same h' k i) (depth : Nat) :
    h'.occurrences depth v = h.occurrences depth v := by
  induction depth generalizing v with
  | zero => rfl
  | succ depth ih =>
    have hpart {u : Value} (hu : h.Contains v u) : h'.occurrences depth u = h.occurrences depth u :=
      ih fun k i hi => hv k i (inside.mono hu hi)
    cases v with
    | array ref =>
      have hitems : h'.arrayAt ref = h.arrayAt ref := hv .array ref.index ⟨_, .refl _, rfl⟩
      rw [occurrences, occurrences, hitems]
      refine congrArg _ (List.flatMap_congr fun u hu => hpart ?_)
      exact .element (Array.mem_toList_iff.1 hu) (.refl u)
    | map ref =>
      have hfields : h'.mapAt ref = h.mapAt ref := hv .map ref.index ⟨_, .refl _, rfl⟩
      rw [occurrences, occurrences, hfields]
      refine congrArg _ (List.flatMap_congr fun u hu => hpart ?_)
      obtain ⟨⟨key, _⟩, hp, rfl⟩ := List.mem_map.1 hu
      exact .field hp (.refl _)
    | error payload => exact hpart (.payload (.refl payload))
    | _ => rfl

end Heap
end ScriptVM
