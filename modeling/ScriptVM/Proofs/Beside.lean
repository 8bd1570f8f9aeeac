import ScriptVM.Proofs.Lockstep

/-!
# The machine beside itself

The machine runs on two heaps where the objects it gets at are paired. It does alike on both, and
the world that it has been given has grown when it is done: what is not paired has been left alone.
-/

namespace ScriptVM

abbrev Table.Related (ρ : Renaming) (t t' : List (Nat × CellRef)) : Prop :=
  List.Forall₂ (fun p q => p.1 = q.1 ∧ ρ.rel .cell p.2.index q.2.index) t t'

def Frame.SameTable (ρ : Renaming) (f f' : Frame) : Prop := Table.Related ρ f.promoted f'.promoted

/-- Two states of the machine that agree in all stack slots, in a world that has grown from `w`. -/
def beside (w : World) : Linkage where
  hidden _ _ := False
  owned _ _ := True
  link ρ m m' :=
    w.Grows ⟨ρ, m.heap, m'.heap⟩ ∧ List.Forall₂ (Frame.SameTable ρ) m.frames m'.frames

section

variable {w : World} {ρ ρ' : Renaming} {f f' : Frame}

theorem Frame.SameTable.mono (h : f.SameTable ρ f') (hle : ρ ≤ ρ') : f.SameTable ρ' f' :=
  h.imp fun _ _ hp => ⟨hp.1, hle _ _ _ hp.2⟩

/-- A local has a cell on both sides or on neither. -/
theorem Table.Related.lookup {t t' : List (Nat × CellRef)} (h : Table.Related ρ t t')
    (slot : Nat) : Option.Rel (fun c c' : CellRef => ρ.rel .cell c.index c'.index) (t.lookup slot)
      (t'.lookup slot) := by
  induction h with
  | nil => exact .none
  | @cons p q _ _ hp _ ih =>
    obtain ⟨k, c⟩ := p
    obtain ⟨k', c'⟩ := q
    obtain ⟨rfl, hrel⟩ := hp
    rw [List.lookup_cons, List.lookup_cons]
    cases slot == k with
    | true => exact .some hrel
    | false => exact ih

theorem Frame.SameTable.cell? (h : f.SameTable ρ f') (slot : Nat) :
    Option.Rel (fun c c' : CellRef => ρ.rel .cell c.index c'.index) (f.cell? slot)
      (f'.cell? slot) := Table.Related.lookup h slot

/-- A local that is bound afresh has no cell on either side. -/
theorem Frame.SameTable.unbind (h : f.SameTable ρ f') (slot : Nat) :
    (f.unbind slot).SameTable ρ (f'.unbind slot) := by
  refine List.rel_filter ?_ h
  rintro ⟨k, c⟩ ⟨k', c'⟩ ⟨rfl, -⟩
  exact Iff.rfl

/-- Nothing of what is asked of two machines gets lost when the world grows. -/
theorem stable_beside : (beside w).Stable := by
  intro ρ ρ₁ m m' m₁ m₁' hlink hgo hgo' _ hg
  refine ⟨hlink.1.trans hg, ?_⟩
  have hstill {fs fs' : List Frame} : List.Forall₂ (Frame.SameTable ρ₁) (fs.map Frame.still)
      (fs'.map Frame.still) ↔ List.Forall₂ (Frame.SameTable ρ₁) fs fs' := by
    rw [List.forall₂_map_left_iff, List.forall₂_map_right_iff]
    exact Iff.rfl
  rw [← hstill, hgo.frames, hgo'.frames, hstill]
  exact hlink.2.imp fun _ _ hf => hf.mono hg.le

/-- All stack slots agree. -/
theorem ready_beside {slots : List Nat} {d : Nat} {o : Outline} : (beside w).Ready slots d o :=
  ⟨fun _ hi => hi.elim, fun _ _ => trivial⟩

end

namespace Exec

variable {α β γ δ : Type} {w : World} {ρ : Renaming} {P P' : Outline → Prop}
  {Q : Renaming → α → β → Prop} {R : Renaming → γ → δ → Prop}

/-- The executing activations have the same locals in paired cells. -/
theorem Sim.of_frameBeside {k : Frame → Exec γ} {l : Frame → Exec δ}
    (h : ∀ ρ₁ f f', ρ ≤ ρ₁ → f.Related ρ₁ f' → f.SameTable ρ₁ f' →
      Sim (beside w) ρ₁ P (k f) (l f') R P') :
    Sim (beside w) ρ P (frame >>= k) (frame >>= l) R P' := by
  intro ρ₁ m m' hle hr hp
  have hframes := hr.frames
  have htables := hr.link.2
  cases hf : m.frames with
  | nil =>
    rw [hf] at hframes
    have hf' : m'.frames = [] := List.forall₂_nil_left_iff.1 hframes
    rw [bind_eq, bind_eq, frame_of_no_frame hf, frame_of_no_frame hf']
    exact ⟨rfl, _, le_refl _, hr⟩
  | cons f rest =>
    rw [hf] at hframes htables
    obtain ⟨f', rest', hrel, -, hf'⟩ := List.forall₂_cons_left_iff.1 hframes
    rw [hf'] at htables
    rw [bind_eq, bind_eq, frame_eq hf, frame_eq hf']
    exact h ρ₁ f f' hle hrel (List.forall₂_cons.1 htables).1 _ _ _ (le_refl _) hr hp

theorem sim_setFrame {f f' : Frame} (hf : f.Related ρ f') (ht : f.SameTable ρ f') :
    Sim (beside w) ρ P (setFrame f) (setFrame f') (fun _ _ _ => True) fun _ => True := by
  intro ρ₁ m m' hle hr _
  have htail {R : Frame → Frame → Prop} {fs fs' : List Frame} (h : List.Forall₂ R fs fs') :
      List.Forall₂ R fs.tail fs'.tail := by
    cases h with
    | nil => exact .nil
    | cons _ h => exact h
  rw [setFrame_eq, setFrame_eq]
  exact ⟨ρ₁, le_refl _, { hr with
    frames := .cons (hf.mono hle) (htail hr.frames)
    link := ⟨hr.link.1, .cons (ht.mono hle) (htail hr.link.2)⟩ }, trivial, trivial⟩

theorem sim_pushFrame {f f' : Frame} (hf : f.Related ρ f') (ht : f.SameTable ρ f')
    (hP : ∀ o, P o → P' { o with shape := (f.function, f.base) :: o.shape }) :
    Sim (beside w) ρ P (pushFrame f) (pushFrame f') (fun _ _ _ => True) P' := by
  intro ρ₁ m m' hle hr hp
  have hdepth : m'.frames.length < m'.maxFrames ↔ m.frames.length < m.maxFrames := by
    rw [hr.frames.length_eq, hr.maxFrames]
  rw [pushFrame_eq, pushFrame_eq]
  by_cases hroom : m.frames.length < m.maxFrames
  · rw [if_pos hroom, if_pos (hdepth.2 hroom)]
    exact ⟨ρ₁, le_refl _, { hr with
      frames := .cons (hf.mono hle) hr.frames
      link := ⟨hr.link.1, .cons (ht.mono hle) hr.link.2⟩ }, trivial, hP _ hp⟩
  · rw [if_neg hroom, if_neg (mt hdepth.1 hroom)]
    exact ⟨rfl, ρ₁, le_refl _, hr⟩

/-- Stack slots are written on both sides, so they still agree. -/
theorem sim_stackSet (i : Nat) {v v' : Value} (hv : v.Related ρ v') :
    Sim (beside w) ρ P (onStack (Stack.set i v)) (onStack (Stack.set i v')) (fun _ _ _ => True)
      fun _ => True := by
  refine sim_onStack stable_beside fun ρ₁ o s s' hle _ _ hr => ?_
  unfold Stack.set
  rw [hr.size]
  by_cases hi : i < s.values.size
  · rw [if_pos hi, if_pos hi]
    refine ⟨trivial, trivial, ⟨hr.capacity, by simp [hr.size], ?_⟩, fun j hj => hj.elim⟩
    intro j u u' hj hu hu'
    rw [Array.getElem?_setIfInBounds] at hu hu'
    rw [hr.size] at hu'
    split at hu
    · rename_i heq
      rw [if_pos heq] at hu'
      rw [if_pos hi] at hu'
      cases hu
      cases hu'
      exact hv.mono hle
    · rename_i hne
      rw [if_neg hne] at hu'
      exact hr.values hj hu hu'
  · rw [if_neg hi, if_neg hi]
    exact ⟨rfl, rfl, rfl⟩

end Exec

namespace HeapM

variable {w : World}

/-- A local is given a cell on both sides, or has one already. -/
theorem sim_promote {f f' : Frame} (hf : f.Related w.ρ f') (ht : f.SameTable w.ρ f') (slot : Nat)
    {v v' : Value} (hv : v.Related w.ρ v') :
    Sim World.Grows w (f.promote slot v) (f'.promote slot v') fun w₁ r r' =>
      w₁.ρ.rel .cell r.1.index r'.1.index ∧ r.2.1 = r'.2.1 ∧ r.2.2.Related w₁.ρ r'.2.2 ∧
        r.2.2.SameTable w₁.ρ r'.2.2 := by
  have hcell := ht.cell? slot
  unfold Frame.promote
  generalize f.cell? slot = c at hcell
  generalize f'.cell? slot = c' at hcell
  cases hcell with
  | some hrel =>
    exact sim_pure fun w₁ hg => ⟨hg.le _ _ _ hrel, rfl, hf.mono hg.le, ht.mono hg.le⟩
  | none =>
    refine (sim_newCell hv).bind fun w₁ c c' hg hrel => sim_pure fun w₂ hg₁ => ?_
    have hle : w.ρ ≤ w₂.ρ := (hg.trans hg₁).le
    refine ⟨hg₁.le _ _ _ hrel, rfl, ?_, .cons ⟨rfl, hg₁.le _ _ _ hrel⟩ (ht.mono hle)⟩
    exact ⟨hf.function.mono hle, hf.ip, hf.base⟩

end HeapM

/-! ## Operations on locals

Both machines find a local in a cell, or both find it on the stack. So they do alike without it
being known which locals have been captured.
-/

namespace Exec

variable {w : World} {ρ : Renaming} {P : Outline → Prop}

theorem sim_getLocal (slot : Nat) :
    Sim (beside w) ρ P (getLocal slot) (getLocal slot) Value.Related P := by
  refine Sim.of_frameBeside fun ρ₁ f f' _ hf ht => ?_
  have hcell := ht.cell? slot
  rw [hf.base]
  generalize f.cell? slot = c at hcell
  generalize f'.cell? slot = c' at hcell
  cases hcell with
  | some hrel => exact sim_cellAt hrel
  | none => exact sim_stackGet stable_beside _ fun _ _ hi => hi

theorem sim_setLocal (slot : Nat) {v v' : Value} (hv : v.Related ρ v') :
    Sim (beside w) ρ P (setLocal slot v) (setLocal slot v') (fun _ _ _ => True)
      fun _ => True := by
  refine Sim.of_frameBeside fun ρ₁ f f' hle hf ht => ?_
  have hcell := ht.cell? slot
  rw [hf.base]
  generalize f.cell? slot = c at hcell
  generalize f'.cell? slot = c' at hcell
  cases hcell with
  | some hrel => exact (sim_setCell stable_beside hrel (hv.mono hle)).post fun _ _ => trivial
  | none => exact sim_stackSet _ (hv.mono hle)

theorem sim_defineLocal (slot : Nat) {v v' : Value} (hv : v.Related ρ v') :
    Sim (beside w) ρ P (defineLocal slot v) (defineLocal slot v') (fun _ _ _ => True)
      fun _ => True := by
  refine Sim.of_frameBeside fun ρ₁ f f' hle hf ht => ?_
  have hframe : (f.unbind slot).Related ρ₁ (f'.unbind slot) := ⟨hf.function, hf.ip, hf.base⟩
  refine (sim_setFrame hframe (ht.unbind slot)).bind fun ρ₂ _ _ hle₁ _ => ?_
  rw [hf.base]
  exact sim_stackSet _ ((hv.mono hle).mono hle₁)

/-- The local is given a cell on both sides or has one on both. -/
theorem sim_captureLocal (slot : Nat) :
    Sim (beside w) ρ P (captureLocal slot) (captureLocal slot)
      (fun ρ c c' => ρ.rel .cell c.index c'.index) fun _ => True := by
  refine Sim.of_frameBeside fun ρ₁ f f' _ hf ht => ?_
  rw [hf.base]
  have hget : Sim (beside w) ρ₁ P (onStack (Stack.get (f.base + slot)))
      (onStack (Stack.get (f.base + slot))) Value.Related P :=
    sim_stackGet stable_beside _ fun _ _ hi => hi
  refine hget.bind fun ρ₂ v v' hle hv => ?_
  have hpromote := sim_onHeap (P := P) (Q := fun ρ r r' => ρ.rel .cell r.1.index r'.1.index ∧
      r.2.1 = r'.2.1 ∧ r.2.2.Related ρ r'.2.2 ∧ r.2.2.SameTable ρ r'.2.2)
    (stable_beside (w := w)) (fun u hu => HeapM.sim_promote (w := u) ((hf.mono hle).mono hu)
      ((ht.mono hle).mono hu) slot (hv.mono hu)) fun _ _ _ h => h
  refine hpromote.bind fun ρ₃ r r' _ hr => ?_
  obtain ⟨c, created, g⟩ := r
  obtain ⟨c', created', g'⟩ := r'
  obtain ⟨hrel, rfl, hg, htable⟩ := hr
  refine (sim_setFrame hg htable).bind fun ρ₄ _ _ hle₁ _ => ?_
  have hreturn (ρ₅ : Renaming) (hle₂ : ρ₄ ≤ ρ₅) :
      Sim (beside w) ρ₅ (fun _ => True) (pure c) (pure c')
        (fun ρ c c' => ρ.rel .cell c.index c'.index) fun _ => True :=
    sim_pure (fun ρ₆ hle₃ => (hle₁.trans (hle₂.trans hle₃)) _ _ _ hrel) fun _ hp => hp
  cases created with
  | true => exact (sim_charge stable_beside).bind fun ρ₅ _ _ hle₂ _ => hreturn ρ₅ hle₂
  | false => exact hreturn ρ₄ (le_refl _)

theorem sim_leave {v v' : Value} (hv : v.Related ρ v') :
    Sim (beside w) ρ P (leave v) (leave v') (fun ρ => Option.Rel (Value.Related ρ))
      fun _ => True := by
  intro ρ₁ m m' hle hr _
  have hframes := hr.frames
  have htables := hr.link.2
  cases hf : m.frames with
  | nil =>
    rw [hf] at hframes
    have hf' : m'.frames = [] := List.forall₂_nil_left_iff.1 hframes
    rw [leave_of_no_frame hf, leave_of_no_frame hf']
    exact ⟨rfl, ρ₁, le_refl _, hr⟩
  | cons f rest =>
    rw [hf] at hframes htables
    obtain ⟨f', rest', hrel, hrest, hf'⟩ := List.forall₂_cons_left_iff.1 hframes
    rw [hf'] at htables
    have hleft : (beside w).Related ρ₁ { m with frames := rest } { m' with frames := rest' } :=
      { hr with
        frames := hrest
        link := ⟨hr.link.1, (List.forall₂_cons.1 htables).2⟩ }
    have hpush : Sim (beside w) ρ₁ (fun _ => True)
        (onStack (Stack.truncate (f.base - 1)) >>= fun _ => push v >>= fun _ => pure none)
        (onStack (Stack.truncate (f.base - 1)) >>= fun _ => push v' >>= fun _ => pure none)
        (fun ρ => Option.Rel (Value.Related ρ)) fun _ => True := by
      have htruncate : Sim (beside w) ρ₁ (fun _ => True) (onStack (Stack.truncate (f.base - 1)))
          (onStack (Stack.truncate (f.base - 1))) (fun _ _ _ => True) fun _ => True :=
        sim_truncate stable_beside _ fun _ _ => ⟨fun _ hi => hi.elim, trivial⟩
      refine htruncate.bind fun ρ₂ _ _ hle₁ _ => ?_
      have hvalue : Sim (beside w) ρ₂ (fun _ => True) (push v) (push v') (fun _ _ _ => True)
          fun _ => True :=
        sim_push stable_beside ((hv.mono hle).mono hle₁) fun _ _ => ⟨fun _ hi => hi.elim, trivial⟩
      exact hvalue.bind fun _ _ _ _ _ => sim_pure (fun _ _ => .none) fun _ hp => hp
    rw [leave_eq hf, leave_eq hf', hrel.base]
    cases hrest with
    | nil => exact ⟨ρ₁, le_refl _, hleft, .some (hv.mono hle), trivial⟩
    | cons =>
      simp only [List.isEmpty_cons, Bool.false_eq_true, if_false]
      by_cases hbase : f.base = 0
      · rw [if_pos hbase, if_pos hbase]
        exact ⟨rfl, ρ₁, le_refl _, hleft⟩
      · rw [if_neg hbase, if_neg hbase]
        exact hpush ρ₁ _ _ (le_refl _) hleft trivial

end Exec

/-- This is all that is asked of a way to compare machines that differ in their locals. -/
theorem lawful_beside (w : World) : (beside w).Lawful .onDemand .onDemand where
  stable := stable_beside
  get _ := (Exec.sim_getLocal _).post fun _ _ => ready_beside
  set _ hv := (Exec.sim_setLocal _ hv).post fun _ _ => ready_beside
  define _ hv := (Exec.sim_defineLocal _ hv).post fun _ _ => ready_beside
  capture _ := (Exec.sim_captureLocal _).post fun _ _ => ready_beside
  enter {ρ f f' callee P} hf _ := by
    have htable : (Frame.start f (callee + 1)).SameTable ρ (.start f' (callee + 1)) := .nil
    have hframe : (Frame.start f (callee + 1)).Related ρ (.start f' (callee + 1)) := ⟨hf, rfl, rfl⟩
    exact Exec.sim_pushFrame hframe htable fun _ _ => ready_beside
  leave hv := Exec.sim_leave hv
  above _ _ _ _ hi := hi.elim

end ScriptVM
